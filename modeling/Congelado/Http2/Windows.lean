import Congelado.Http2.Step

/-!
# The windows for what is sent

A `WINDOW_UPDATE` raises the window of its stream, and what is sent lowers it; a change of the
initial window size is a change of the windows of all streams (`Accounted`). The code raises the
window of the connection along with that of a stream, adds a change of the initial window size to
the window of the connection, and lowers no window when it sends. As long as none of this matters
(`PlainStep`) the windows stay where they should be (`Session.Steady`).
-/

namespace Congelado.Http2

open Codec Attempt Action List Transition

variable {event : Event}

/-! ### What should be in the windows -/

namespace Event

/-- What an event grants to a stream, or to the connection if the number is zero. -/
def credit (id : ℕ) : Event → ℤ
  | .received header payload =>
    if header.type = .windowUpdate ∧ header.streamId = id then increment payload else 0
  | _ => 0

/-- The bytes of `DATA` that were sent. -/
def debit : Event → ℤ
  | .sent frame => if frame.type = .data then frame.payload.length else 0
  | _ => 0

/-- The bytes of `DATA` that were sent on a stream. -/
def debitOn (id : ℕ) : Event → ℤ
  | .sent frame => if frame.type = .data ∧ frame.streamId = id then frame.payload.length else 0
  | _ => 0

end Event

open Event (credit debit debitOn)

variable (amount : Event → ℤ)

/-- The sum over a log. -/
def total (log : List Event) : ℤ := (log.map amount).sum

/-- Each window is what was granted and is not used up. -/
structure Accounted (s : Session) : Prop where
  connection : s.conn.sendWindow =
    defaultInitialWindowSize + total (credit 0) s.conn.log - total debit s.conn.log
  streams : ∀ id stream, s.slot id = some (some stream) → stream.sendWindow =
    s.conn.remoteSettings.initialWindowSize + total (credit id) s.conn.log -
      total (debitOn id) s.conn.log

theorem total_append (log events : List Event) :
    total amount (log ++ events) = total amount log + total amount events := by
  rw [total, map_append, sum_append]
  rfl

theorem total_eq_zero {amount : Event → ℤ} {log : List Event}
    (h : ∀ event ∈ log, amount event = 0) :
    total amount log = 0 := by
  refine sum_eq_zero fun x hx => ?_
  obtain ⟨event, hevent, rfl⟩ := mem_map.1 hx
  exact h event hevent

/-! ### Frames that are accounted for -/

/-- A `WINDOW_UPDATE` for the connection, with its four bytes; settings that leave the initial
window size as it is; and any frame of another type. -/
def Plain (s : Session) (header : FrameHeader) (rest : List UInt8) : Prop :=
  (header.type = .windowUpdate → header.streamId = 0 ∧ 4 ≤ header.length) ∧
  (header.type = .settings → header.streamId = 0 → header.has Flags.ack = false →
    ∀ settings, Settings.read rest = .ok settings →
      settings.initialWindowSize = s.conn.remoteSettings.initialWindowSize)

/-- The frames are plain, and the responses have no body. -/
def PlainStep (host : Host) (s : Session) : Label → Prop
  | .read bytes =>
    (∀ request response, (host.dispatch request response).response.body = []) ∧
    ∀ header rest, (s.pushBack bytes).upcoming = some (header, rest) → Plain s header rest
  | .reply _ response => response.body = []

/-- The event is not one of those that the windows are wrong after. -/
def Event.Neutral (event : Event) : Prop :=
  (∀ id ≠ 0, event.credit id = 0) ∧ event.debit = 0

/-- What holds of the connection while its windows are right. -/
structure Connection.Steady (c : Connection) : Prop where
  initialWindowSize : c.remoteSettings.initialWindowSize = defaultInitialWindowSize
  delta : c.remoteSettings.deltaWindowOnSettings = 0
  window : c.sendWindow = defaultInitialWindowSize + total (credit 0) c.log
  nonneg : 0 ≤ c.sendWindow
  le_max : c.sendWindow ≤ maxInitialWindowSize
  neutral : ∀ event ∈ c.log, event.Neutral

/-- The windows of the streams are those they were created with. -/
structure Session.Steady (s : Session) : Prop where
  conn : s.conn.Steady
  streams : ∀ id stream, s.slot id = some (some stream) →
    id ≠ 0 ∧ stream.sendWindow = defaultInitialWindowSize

theorem Event.Neutral.debitOn (h : event.Neutral) (id : ℕ) : event.debitOn id = 0 := by
  cases event with
  | sent frame =>
    have hdebit := h.2
    simp only [Event.debit, Event.debitOn] at hdebit ⊢
    split_ifs with hon
    · rwa [if_pos hon.1] at hdebit
    · rfl
  | received | fed | dispatched => rfl

theorem Session.Steady.accounted {s : Session} (h : s.Steady) : Accounted s where
  connection := by
    have hspent : total debit s.conn.log = 0 :=
      total_eq_zero fun event hevent => (h.conn.neutral event hevent).2
    rw [h.conn.window, hspent, sub_zero]
  streams id stream hslot := by
    obtain ⟨hid, hwindow⟩ := h.streams id stream hslot
    have hgranted : total (credit id) s.conn.log = 0 :=
      total_eq_zero fun event hevent => (h.conn.neutral event hevent).1 id hid
    have hspent : total (debitOn id) s.conn.log = 0 :=
      total_eq_zero fun event hevent => (h.conn.neutral event hevent).debitOn id
    rw [hwindow, h.conn.initialWindowSize, hgranted, hspent, add_zero, sub_zero]

/-! ### The connection -/

namespace Connection

variable {c : Connection} {header : FrameHeader}

/-- Nothing is noted that the windows depend on. -/
theorem Steady.extend {d : Connection} (h : c.Steady)
    (hremote : d.remoteSettings = c.remoteSettings) (hwindow : d.sendWindow = c.sendWindow)
    {events : List Event} (hlog : d.log = c.log ++ events)
    (hevents : ∀ event ∈ events, event.Neutral ∧ event.credit 0 = 0) : d.Steady := by
  refine ⟨?_, ?_, ?_, ?_, ?_, fun event hevent => ?_⟩
  · rw [hremote]
    exact h.initialWindowSize
  · rw [hremote]
    exact h.delta
  · rw [hlog, total_append, total_eq_zero fun event hevent => (hevents event hevent).2, add_zero,
      hwindow]
    exact h.window
  · rw [hwindow]
    exact h.nonneg
  · rw [hwindow]
    exact h.le_max
  · rw [hlog] at hevent
    obtain hevent | hevent := mem_append.1 hevent
    · exact h.neutral event hevent
    · exact (hevents event hevent).1

theorem Steady.emit (h : c.Steady) (hneutral : event.Neutral)
    (hcredit : event.credit 0 = 0) : (c.emit event).Steady := by
  refine h.extend rfl rfl rfl fun e he => ?_
  rw [mem_singleton.1 he]
  exact ⟨hneutral, hcredit⟩

theorem Steady.consume (h : c.Steady) (bytes : ℕ) :
    Steady { c with reader := c.reader.consume bytes } :=
  ⟨h.initialWindowSize, h.delta, h.window, h.nonneg, h.le_max, h.neutral⟩

/-- A window that is raised without an overflow. -/
theorem raised_eq {id increment : ℕ} {window after : ℤ} (h : raised id window increment = .ok after)
    (hnonneg : 0 ≤ window) (hmax : window ≤ maxInitialWindowSize)
    (hincrement : increment ≤ maxInitialWindowSize) :
    after = window + increment ∧ after ≤ maxInitialWindowSize := by
  have hsum : (window + increment) % 2 ^ 32 = window + increment := by
    apply Int.emod_eq_of_lt <;> simp only [maxInitialWindowSize] at * <;> omega
  unfold raised at h
  split_ifs at h with hzero hover
  cases h
  exact ⟨hsum, not_lt.1 hover⟩

/-- A frame that is not a `WINDOW_UPDATE` grants nothing. -/
theorem Steady.received (h : c.Steady) (htype : header.type ≠ .windowUpdate)
    (payload : List UInt8) :
    (c.emit (.received header payload)).Steady := by
  have hcredit : ∀ id, (Event.received header payload).credit id = 0 :=
    fun id => if_neg fun hupdate => htype hupdate.1
  exact h.emit ⟨fun id _ => hcredit id, rfl⟩ (hcredit 0)

theorem Steady.send (h : c.Steady) (frame : Frame) (htype : frame.type ≠ .data) :
    (c.emit (.sent frame)).Steady :=
  h.emit ⟨fun _ _ => rfl, if_neg htype⟩ rfl

/-- The increment that is read is the one of the payload, if that has four bytes. -/
theorem readWindowIncrement_eq {reader : Reader} {length value : ℕ} (hlength : 4 ≤ length)
    (hsize : length ≤ reader.size) (h : reader.readWindowIncrement = .ok value) :
    value = increment (reader.viewed length) := by
  simp only [Reader.readWindowIncrement, Reader.read, Reader.take] at h
  rw [min_eq_left (hlength.trans hsize)] at h
  split_ifs at h
  · cases h
  · change (if readBigEndian (reader.rest.take 4) &&& 0x7FFFFFFF = 0 then _ else _) = _ at h
    split_ifs at h
    cases h
    rw [increment, Reader.viewed, take_take, min_eq_left hlength]

/-- Settings that leave the initial window size as it is leave the windows as they are. -/
theorem handleSettings_steady (h : c.Steady) (hsettings : ∀ settings,
      Settings.read c.reader.rest = .ok settings →
        settings.initialWindowSize = c.remoteSettings.initialWindowSize) :
    (handleSettings c).Ends Steady fun _ _ => True := by
  unfold handleSettings
  split_ifs
  · trivial
  · refine reading_ends.2 ⟨fun _ _ => trivial, fun settings hread => ?_⟩
    have hsame : c.remoteSettings.initialWindowSize =
        (c.remoteSettings.applyAll settings).initialWindowSize := (hsettings settings hread).symm
    simp only [andThen_ends, modify_ends, settleWindow]
    rw [if_pos hsame]
    exact ⟨hsame.symm.trans h.initialWindowSize, h.delta, h.window, h.nonneg, h.le_max, h.neutral⟩

/-- A `WINDOW_UPDATE` for the connection raises its window by the increment that was received. -/
theorem receiveWindowUpdate_steady (h : c.Steady) (htype : header.type = .windowUpdate)
    (hid : header.streamId = 0) (hsize : header.length ≤ c.reader.size)
    (hlength : 4 ≤ header.length) :
    (receiveWindowUpdate (c.emit (.received header (c.reader.viewed header.length)))).Ends Steady
      fun _ _ => True := by
  have hcredit : (Event.received header (c.reader.viewed header.length)).credit 0 =
      increment (c.reader.viewed header.length) := if_pos ⟨htype, hid⟩
  refine reading_ends.2 ⟨fun _ _ => trivial, fun value hvalue => ?_⟩
  obtain rfl := readWindowIncrement_eq hlength hsize hvalue
  refine reading_ends.2 ⟨fun _ _ => trivial, fun window hwindow => ?_⟩
  obtain ⟨rfl, hmax⟩ := raised_eq hwindow h.nonneg h.le_max (Nat.and_le_right)
  refine ⟨h.initialWindowSize, h.delta, ?_, ?_, hmax, fun event hevent => ?_⟩
  · change c.sendWindow + _ = _ + total (credit 0) (c.log ++ [_])
    have hone : total (credit 0) [.received header (c.reader.viewed header.length)] =
        increment (c.reader.viewed header.length) := by
      simp only [total, map_cons, map_nil, sum_cons, sum_nil, hcredit, add_zero]
    rw [total_append, h.window, hone, add_assoc]
  · exact add_nonneg h.nonneg (Int.natCast_nonneg _)
  · obtain hevent | hevent := mem_append.1 hevent
    · exact h.neutral event hevent
    · rw [mem_singleton.1 hevent]
      exact ⟨fun id hne => if_neg fun hupdate => hne (hupdate.2.symm.trans hid), rfl⟩

/-- The connection stays steady with a plain frame. -/
theorem receive_steady (host : Host) (h : c.Steady) (hid : header.streamId = 0)
    (hsize : header.length ≤ c.reader.size)
    (hupdate : header.type = .windowUpdate → 4 ≤ header.length)
    (hsettings : header.type = .settings → header.has Flags.ack = false →
      ∀ settings, Settings.read c.reader.rest = .ok settings →
        settings.initialWindowSize = c.remoteSettings.initialWindowSize) :
    (receive host header (c.emit (.received header (c.reader.viewed header.length)))).Ends Steady
      fun _ _ => True := by
  -- the log changes the balance for a `WINDOW_UPDATE` only
  have hreceived : header.type ≠ .windowUpdate →
      (c.emit (.received header (c.reader.viewed header.length))).Steady :=
    fun htype => h.received htype _
  cases htype : header.type with
  | windowUpdate =>
    simp only [receive, htype, andThen_ends, consume, modify_ends]
    refine (receiveWindowUpdate_steady h htype hid hsize (hupdate htype)).mono (fun d hd => ?_)
      fun _ _ he => he
    exact hd.consume header.length
  | goaway =>
    have hreceived := hreceived (by simp [htype])
    simp only [receive, htype, andThen_ends, modify_ends, consume, send]
    refine Steady.send ?_ _ FrameType.noConfusion
    exact ⟨hreceived.initialWindowSize, hreceived.delta, hreceived.window, hreceived.nonneg,
      hreceived.le_max, hreceived.neutral⟩
  | ping =>
    have hreceived := hreceived (by simp [htype])
    simp only [receive, htype, reading_ends]
    refine ⟨fun _ _ => trivial, fun payload _ => ?_⟩
    split_ifs
    · trivial
    · exact hreceived.consume header.length
    · exact (hreceived.consume header.length).send _ FrameType.noConfusion
  | settings =>
    have hreceived := hreceived (by simp [htype])
    cases hack : header.has Flags.ack with
    | true =>
      simp only [receive, htype, hack, if_true, andThen_ends, modify_ends, consume]
      exact ⟨hreceived.initialWindowSize, hreceived.delta, hreceived.window, hreceived.nonneg,
        hreceived.le_max, hreceived.neutral⟩
    | false =>
      simp only [receive, htype, hack, Bool.false_eq_true, if_false, andThen_ends]
      refine (handleSettings_steady hreceived (hsettings htype hack)).mono (fun d hd => ?_)
        fun _ _ he => he
      exact (hd.consume header.length).send _ FrameType.noConfusion
  | unknown code =>
    have hreceived := hreceived (by simp [htype])
    simp only [receive, htype, andThen_ends, skipUnknown, modify_ends, consume]
    split_ifs
    · exact ⟨hreceived.initialWindowSize, hreceived.delta, hreceived.window, hreceived.nonneg,
        hreceived.le_max, hreceived.neutral⟩
    · exact hreceived.consume header.length
  | data | headers | priority | pushPromise | continuation | rstStream =>
    simp only [receive, htype]
    trivial

end Connection

/-! ### The streams -/

namespace Session

variable {s t : Session} {host : Host} {header : FrameHeader} {id : ℕ}

section

variable (h : s.Steady)

include h

theorem Steady.setSlot (hid : id ≠ 0) {slot : Option Stream}
    (hslot : ∀ stream, slot = some stream → stream.sendWindow = defaultInitialWindowSize) :
    (s.setSlot id slot).Steady := by
  refine ⟨h.conn, fun other stream hother => ?_⟩
  by_cases hne : other = id
  · subst hne
    rw [slot_setSlot_self] at hother
    exact ⟨hid, hslot stream (Option.some.inj hother)⟩
  · rw [slot_setSlot_of_ne hne] at hother
    exact h.streams other stream hother

theorem Steady.withConn {conn : Connection} (hconn : conn.Steady) :
    Steady { s with conn } :=
  ⟨hconn, h.streams⟩

theorem Steady.withPending (pending : List ℕ) : Steady { s with pending } :=
  ⟨h.conn, h.streams⟩

theorem Steady.headed (hst : Headed s t) : t.Steady := by
  obtain ⟨hstreams, hwindow, hdelta⟩ := hst.windows h.conn.delta.le
  refine ⟨⟨hst.initialWindowSize.trans h.conn.initialWindowSize, hdelta.trans h.conn.delta, ?_, ?_,
    ?_, ?_⟩, fun id stream hslot => ?_⟩
  · rw [hwindow, hst.log]
    exact h.conn.window
  · rw [hwindow]
    exact h.conn.nonneg
  · rw [hwindow]
    exact h.conn.le_max
  · rw [hst.log]
    exact h.conn.neutral
  · rw [slot, hstreams] at hslot
    exact h.streams id stream hslot

theorem Steady.reset (hid : id ≠ 0) (code : Http2ErrorCode) :
    (s.reset id code).Steady :=
  (h.withConn (h.conn.send (.rstStream id code) nofun)).setSlot hid nofun

/-- A response without a body. -/
theorem Steady.sends (hst : Sends id s t) (hbody : Bodyless (s.slot id)) : t.Steady := by
  obtain ⟨frames, hlog, hframes⟩ := hst.log
  have hneutral : ∀ event ∈ frames.map Event.sent, event.Neutral ∧ event.credit 0 = 0 := by
    intro event hevent
    obtain ⟨frame, hframe, rfl⟩ := mem_map.1 hevent
    refine ⟨⟨fun _ _ => rfl, ?_⟩, rfl⟩
    rw [Event.debit]
    split_ifs with htype
    · rw [hframes hbody frame hframe htype]
      rfl
    · rfl
  refine ⟨h.conn.extend ?_ ?_ hlog hneutral, fun other stream hslot => ?_⟩
  · rw [hst.conn]
  · rw [hst.conn]
  · obtain ⟨before, response, hbefore, rfl⟩ := hst.exists_stream hslot
    exact h.streams other before hbefore

theorem getOrCreateStream_steady (hid : id ≠ 0) :
    (getOrCreateStream id s).Ends Steady fun _ => Steady := by
  unfold getOrCreateStream
  split
  · exact h
  · exact h
  · split_ifs
    · exact h
    · refine h.setSlot hid fun stream hstream => ?_
      cases hstream
      exact congrArg Nat.cast h.conn.initialWindowSize

theorem onStream_receive_steady (hid : id ≠ 0) (htype : header.type ≠ .windowUpdate) :
    (onStream id (Stream.receive host header) s).Ends Steady fun _ => Steady := by
  refine .of_state ?_
  unfold onStream
  split
  · exact h
  · exact h
  · rename_i stream hslot
    have htouched := Stream.receive_touches host header ⟨s.conn, stream⟩
    obtain ⟨blocks, hlog⟩ := htouched.log
    obtain ⟨hconn, hstream⟩ := htouched.windows htype
    refine (h.withConn ?_).setSlot hid fun after hafter => ?_
    · refine h.conn.extend htouched.remoteSettings hconn hlog fun event hevent => ?_
      obtain ⟨block, -, rfl⟩ := mem_map.1 hevent
      exact ⟨⟨fun _ _ => rfl, rfl⟩, rfl⟩
    · cases hafter
      exact hstream.trans (h.streams id stream hslot).2

theorem Steady.dispatching (host : Host) {stream : Stream}
    (hslot : s.slot id = some (some stream)) : (s.dispatching host id stream).Steady := by
  obtain ⟨hid, hwindow⟩ := h.streams id stream hslot
  refine (h.withConn (h.conn.emit ⟨fun _ _ => rfl, rfl⟩ rfl)).setSlot hid fun after hafter => ?_
  cases hafter
  exact hwindow

end

section

variable (hdispatch : ∀ request response, (host.dispatch request response).response.body = [])

include hdispatch

theorem respondIfDone_steady (h : s.Steady) :
    (respondIfDone host id s).Ends Steady fun _ => Steady := by
  refine .of_state ?_
  unfold respondIfDone
  split
  · rename_i stream hslot
    split_ifs
    · obtain ⟨pending, hsends⟩ := response_sends host hslot
      refine ((h.dispatching host hslot).withPending pending).sends hsends fun after hafter => ?_
      rw [show ({ s.dispatching host id stream with pending } : Session).slot id =
        (s.dispatching host id stream).slot id from rfl, slot_dispatching_self] at hafter
      cases hafter
      exact hdispatch _ _
    · exact h
  · exact h

/-- A plain frame keeps the windows right. -/
theorem handleFrame_steady (h : s.Steady)
    (hsize : header.length ≤ s.conn.reader.size) (hplain : Plain s header s.conn.reader.rest) :
    (handleFrame host header (s.takeHeader header)).Ends Steady fun e t =>
      ∀ id code, e = .streamError id code → id ≠ 0 → t.slot id ≠ none →
        (t.reset id code).Steady := by
  unfold handleFrame
  split_ifs with hid
  · rw [onConnection, zoom_ends]
    have hsteady :=
      Connection.receive_steady host h.conn hid hsize (fun htype => (hplain.1 htype).2)
      fun htype => hplain.2 htype hid
    have hends := hsteady.and (Connection.receive_throws host header _)
    refine hends.mono (fun c hc => ⟨hc.1, h.streams⟩) fun e c he id code hthrown hne _ => ?_
    exact absurd (he.2.unnamed id code hthrown) hne
  · have htype : header.type ≠ .windowUpdate := fun htype => hid (hplain.1 htype).1
    have htaken : (s.takeHeader header).Steady := ⟨h.conn.received htype _, h.streams⟩
    have hends : (andThen (getOrCreateStream header.streamId) (andThen
        (onStream header.streamId (Stream.receive host header))
          (respondIfDone host header.streamId))
        (s.takeHeader header)).Ends Steady fun _ => Steady := by
      simp only [andThen_ends]
      refine (getOrCreateStream_steady htaken hid).mono (fun t ht => ?_) fun _ _ he => he
      refine (onStream_receive_steady ht hid htype).mono (fun u hu => ?_) fun _ _ he => he
      exact respondIfDone_steady hdispatch hu
    exact hends.mono (fun _ ht => ht) fun e t ht id code _ hne _ => ht.reset hne code

end

theorem steady_init : Steady {} where
  conn := ⟨rfl, rfl, rfl, by decide, by decide, nofun⟩
  streams := nofun

end Session

/-- As long as the frames are plain and the responses have no body, every window is what was granted
and is not used up. -/
theorem accounted_of_plain {host : Host} {t : Session} (h : (server host).Run (PlainStep host) {} t)
    (hrunning : t.status = .running) : Accounted t := by
  refine ((logged_of_run (D := fun _ => True) h Session.steady_init (fun _ _ => ⟨⟩)
    (fun _ _ _ => ⟨⟩) (fun s t hs ht => hs.headed ht) (fun s id code hs hid => hs.reset hid code) ?_
    (fun s pending hs => hs.withPending pending) ?_).1 hrunning).accounted
  · intro s bytes header t hok ht hupcoming hsize hs
    refine (Session.handleFrame_steady hok.1 hs hsize ⟨(hok.2 header _ hupcoming).1, ?_⟩).mono
      (fun _ h => h) fun _ _ h => ⟨⟨⟩, h⟩
    intro htype hid hack settings hsettings
    have hsame := (hok.2 header _ hupcoming).2 htype hid hack settings hsettings
    rw [hsame, ht.initialWindowSize]
    rfl
  · intro s pending t id response stream hs hbody hslot hsends
    obtain ⟨hid, hwindow⟩ := hs.streams id stream hslot
    refine Session.Steady.sends ((hs.withPending pending).setSlot hid fun after hafter => ?_) hsends
      fun after hafter => ?_
    · cases hafter
      exact hwindow
    · rw [Session.slot_setSlot_self] at hafter
      cases hafter
      exact hbody

/-- A `WINDOW_UPDATE` for the connection. -/
def connectionUpdate : List UInt8 :=
  Frame.write { type := .windowUpdate, streamId := 0, payload := [0, 0, 0, 100] }

theorem accounted_of_plain_update : ∃ t, (server emptyHost).Run (PlainStep emptyHost) {} t ∧
    t.status = .running ∧ t.conn.sendWindow = 65635 ∧ Accounted t := by
  have hupcoming : (Session.pushBack connectionUpdate {}).upcoming =
      some (⟨4, .windowUpdate, 0, 0⟩, [0, 0, 0, 100]) := by decide +kernel
  have hplain : PlainStep emptyHost {} (.read connectionUpdate) := by
    refine ⟨fun _ _ => rfl, fun header rest h => ?_⟩
    rw [hupcoming] at h
    cases h
    exact ⟨fun _ => by decide, nofun⟩
  obtain ⟨t, hnext, hrunning, hwindow⟩ : ∃ t,
      (server emptyHost).next (.read connectionUpdate) {} = some t ∧ t.status = .running ∧
        t.conn.sendWindow = 65635 := System.exists_of_any (by decide +kernel)
  have hrun := System.Run.refl.tail hplain hnext
  exact ⟨t, hrun, hrunning, hwindow, accounted_of_plain hrun hrunning⟩

/-- A stream is opened, and its window is raised. -/
def streamUpdate : List Label :=
  [.read (Frame.write { type := .headers, flags := Flags.endHeaders, streamId := 1 }),
    .read (Frame.write { type := .windowUpdate, streamId := 1, payload := [0, 0, 0, 100] })]

/-- The window of the connection is raised along with the one of the stream. -/
theorem stream_update_miscounted : ∃ t, (server keepingHost).Run System.Any {} t ∧
    t.status = .running ∧ ¬Accounted t := by
  obtain ⟨t, hrun, hrunning, hwindow⟩ : ∃ t, (server keepingHost).Run System.Any {} t ∧
      t.status = .running ∧ t.conn.sendWindow ≠
        defaultInitialWindowSize + total (credit 0) t.conn.log - total debit t.conn.log :=
    (server keepingHost).exists_run streamUpdate (by decide +kernel)
  exact ⟨t, hrun, hrunning, fun h => hwindow h.connection⟩

end Congelado.Http2
