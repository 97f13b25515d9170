import Congelado.Http2.Twin

/-!
# The bytes behind a frame

What a frame does should not depend on the bytes that follow it. But the handlers of some frames
read a fixed number of bytes, or all that is in the reader, and do not look at the length of the
frame. `Contained` says when what they read beyond the payload makes no difference: the payload is
long enough, or the outcome is an error whatever is read. Such a frame is `Isolated`.
-/

namespace Congelado.Http2

open Codec Attempt Action List

variable {payload : List UInt8} {window : ℤ}

/-! ### The condition -/

/-- The increment takes the window over its limit. -/
def Overflows (window : ℤ) (increment : ℕ) : Prop :=
  increment ≠ 0 ∧ maxInitialWindowSize < (window + increment) % 2 ^ 32

/-- A frame of the connection that has all the bytes that are read for it, or fails in any case. -/
structure Connection.Contained (header : FrameHeader) (payload : List UInt8) (c : Connection) :
    Prop where
  update : header.type = .windowUpdate → 4 ≤ header.length ∨
    c.reader.Synced ∧ ∀ tail, Overflows c.sendWindow (increment (payload ++ tail))
  ping : header.type = .ping → 8 ≤ header.length
  settings : header.type = .settings → header.has Flags.ack = false →
    c.remoteSettings.state = .implemented ∨ ∃ e, Settings.read payload = .error e

/-- A frame on a stream that has all the bytes that are read for it, or fails in any case. An error
code that is not known is taken for an internal error. -/
structure Stream.Contained (header : FrameHeader) (payload : List UInt8) (c : Context) : Prop where
  update : header.type = .windowUpdate → 4 ≤ header.length ∨
    c.conn.reader.Synced ∧ ∀ tail, Overflows c.stream.sendWindow (increment (payload ++ tail))
  reset : header.type = .rstStream → 4 ≤ header.length ∨
    c.conn.reader.Synced ∧ getHttp2ErrorCode (readBigEndian payload) = .internalError

/-- The frame comes to its handler. -/
def Stream.Admits (header : FrameHeader) (stream : Stream) : Prop :=
  (stream.expectingContinuation = true → header.type = .continuation) ∧
    ∃ state, StreamStateMachine.advance stream.id header.type header.flags false stream.state =
      .ok state

namespace Session

/-- The frame has all the bytes that are read for it, or does not come to its handler, or fails in
any case. -/
def Contained (header : FrameHeader) (payload : List UInt8) (s : Session) : Prop :=
  if header.streamId = 0 then s.conn.Contained header payload
  else ∀ stream, s.slot header.streamId = some (some stream) → stream.Admits header →
    Stream.Contained header payload ⟨s.conn, stream⟩

/-- The session when the frame at hand is handled, if it comes to that. -/
def atFrame (s : Session) : Option Session :=
  match s.safeHeader with
  | some _ => some s
  | none => if (receiveHeader s).thrown = none then some (receiveHeader s).state else none

/-- Whatever follows in the reader, a call does the same, but for the reader. -/
def Isolated (host : Host) (s : Session) : Prop :=
  ∀ a b, (receive host (s.pushBack a)).Related Twin (receive host (s.pushBack b))

/-! ### The frame at hand -/

variable {s t : Session} {host : Host} {header : FrameHeader}

/-- What is behind the frame comes to the handler with it. -/
theorem receiveFrame_of_atFrame (host : Host) (hupcoming : s.upcoming = some (header, payload))
    (ht : s.atFrame = some t) : t.conn.reader.rest = payload ∧ header.length ≤ t.conn.reader.size ∧
      ∀ tail, receiveFrame host (s.pushBack tail) =
        handleFrame host header ((t.pushBack tail).takeHeader header) := by
  have hpayload : ∀ t : Session, t.safeHeader = some header → header.length ≤ t.conn.reader.size →
      ∀ tail, receivePayload host (t.pushBack tail) =
        handleFrame host header ((t.pushBack tail).takeHeader header) := by
    intro t hsafe hsize tail
    have hmore : ¬(t.pushBack tail).conn.reader.size < header.length :=
      not_lt.2 (hsize.trans (Nat.le_add_right _ _))
    have hkept : (t.pushBack tail).safeHeader = some header := hsafe
    rw [receivePayload, hkept]
    exact if_neg hmore
  cases hsafe : s.safeHeader with
  | some kept =>
    simp only [upcoming, hsafe] at hupcoming
    split_ifs at hupcoming with hsize
    cases hupcoming
    simp only [atFrame, hsafe, Option.some.injEq] at ht
    subst ht
    refine ⟨rfl, not_lt.1 hsize, fun tail => ?_⟩
    have hkept : (s.pushBack tail).safeHeader = some header := hsafe
    rw [receiveFrame, hkept]
    exact hpayload s hsafe (not_lt.1 hsize) tail
  | none =>
    obtain ⟨hsize, hnext, hlength, hpayload'⟩ := of_upcoming hsafe hupcoming
    simp only [atFrame, hsafe, Option.ite_none_right_eq_some, Option.some.injEq] at ht
    obtain ⟨hthrown, rfl⟩ := ht
    obtain ⟨header', hheader', -, hkept, hreader⟩ :=
      (Outcome.ends_iff.1 (receiveHeader_spec (s := s))).1 hthrown
    rw [hnext] at hheader'
    cases hheader'
    rw [hreader]
    refine ⟨hpayload', hlength, fun tail => ?_⟩
    have hmore : ¬(s.pushBack tail).conn.reader.size < headerSize :=
      not_lt.2 (hsize.trans (Nat.le_add_right _ _))
    have hnone : (s.pushBack tail).safeHeader = none := hsafe
    have hrest := le_length_of_nextHeader hsize hnext
    rw [receiveFrame, hnone]
    simp only [if_neg hmore, andThen, receiveHeader_pushBack hrest hsize, Outcome.map, hthrown]
    exact hpayload _ hkept (hreader ▸ hlength) tail

/-- A frame that fails with its header. -/
theorem receiveFrame_of_refused (hupcoming : s.upcoming = some (header, payload))
    (h : s.atFrame = none) (tail : List UInt8) :
    receiveFrame host (s.pushBack tail) = (receiveHeader s).map (pushBack tail) := by
  cases hsafe : s.safeHeader with
  | some kept =>
    simp only [atFrame, hsafe] at h
    cases h
  | none =>
    obtain ⟨hsize, hnext, -, -⟩ := of_upcoming hsafe hupcoming
    simp only [atFrame, hsafe, ite_eq_right_iff, reduceCtorEq, imp_false] at h
    have hmore : ¬(s.pushBack tail).conn.reader.size < headerSize :=
      not_lt.2 (hsize.trans (Nat.le_add_right _ _))
    have hnone : (s.pushBack tail).safeHeader = none := hsafe
    have hrest := le_length_of_nextHeader hsize hnext
    obtain ⟨e, he⟩ := Option.ne_none_iff_exists'.1 h
    rw [receiveFrame, hnone]
    simp only [if_neg hmore, andThen, receiveHeader_pushBack hrest hsize, Outcome.map, he]

end Session

/-! ### Numbers -/

theorem foldl_readBigEndian (bytes : List UInt8) (acc : ℕ) :
    bytes.foldl (fun acc byte => 256 * acc + byte.toNat) acc =
      acc * 256 ^ bytes.length + readBigEndian bytes := by
  induction bytes generalizing acc with
  | nil => simp [readBigEndian]
  | cons byte bytes ih =>
    rw [readBigEndian, foldl_cons, foldl_cons, ih, ih (256 * 0 + byte.toNat), length_cons]
    ring

theorem readBigEndian_append (a b : List UInt8) :
    readBigEndian (a ++ b) = readBigEndian a * 256 ^ b.length + readBigEndian b := by
  rw [readBigEndian, foldl_append]
  exact foldl_readBigEndian b _

theorem getHttp2ErrorCode_of_le {code : ℕ} (h : 14 ≤ code) :
    getHttp2ErrorCode code = .internalError := by
  rw [getHttp2ErrorCode, getElem?_eq_none (by exact h)]
  rfl

/-- More bytes make no other error of an internal one. -/
theorem getHttp2ErrorCode_append
    (h : getHttp2ErrorCode (readBigEndian payload) = .internalError) (more : List UInt8) :
    getHttp2ErrorCode (readBigEndian (payload ++ more)) = .internalError := by
  cases more with
  | nil =>
    rwa [append_nil]
  | cons byte more =>
    refine getHttp2ErrorCode_of_le ?_
    have hpos : 1 ≤ readBigEndian payload := by
      by_contra hzero
      rw [Nat.not_le, Nat.lt_one_iff] at hzero
      rw [hzero] at h
      cases h
    have hpow : 256 ≤ 256 ^ (byte :: more).length := by
      rw [length_cons, pow_succ]
      exact Nat.le_mul_of_pos_left 256 (Nat.pos_of_ne_zero (by positivity))
    rw [readBigEndian_append]
    calc 14 ≤ 1 * 256 := by decide
      _ ≤ readBigEndian payload * 256 ^ (byte :: more).length := Nat.mul_le_mul hpos hpow
      _ ≤ _ := Nat.le_add_right _ _

theorem raised_of_overflows {increment : ℕ} (h : Overflows window increment) (id : ℕ) :
    raised id window increment = .error (.streamError id .flowControlError) := by
  rw [raised, if_neg h.1, if_pos h.2]

/-- Settings that are refused are refused whatever follows them. -/
theorem Settings.read_append_error {e : Thrown}
    (hread : Settings.read payload = .error e) (tail : List UInt8) :
    Settings.read (payload ++ tail) = .error e := by
  suffices ∀ settings, applyEach settings (pairs payload) = .error e →
      applyEach settings (pairs (payload ++ tail)) = .error e from this {} hread
  clear hread
  intro settings h
  fun_induction pairs payload generalizing settings with
  | case1 a b c d f g rest ih =>
    rw [applyEach] at h
    simp only [cons_append, pairs, applyEach]
    cases happly : apply (readBigEndian [a, b]) (readBigEndian [c, d, f, g]) settings with
    | error e' =>
      rwa [happly] at h
    | ok after =>
      rw [happly] at h
      exact ih after h
  | case2 => cases h

/-! ### Frames that are contained -/

section Contained

variable {host : Host} {header : FrameHeader}

namespace Reader

variable {reader : Reader}

theorem readWindowIncrement_pushBack (hrest : 4 ≤ reader.rest.length) (hsize : 4 ≤ reader.size)
    (tail : List UInt8) :
      (reader.pushBack tail).readWindowIncrement = reader.readWindowIncrement := by
  rw [readWindowIncrement, read_pushBack hrest hsize]
  rfl

/-- An increment that takes the window over its limit is not zero. -/
theorem Synced.readWindowIncrement_of_overflows (h : reader.Synced)
    (hover : Overflows window (increment reader.rest)) :
    reader.readWindowIncrement = .ok (increment reader.rest) := by
  rw [h.readWindowIncrement, if_neg hover.1]

end Reader

namespace Connection

variable {c : Connection}

theorem receiveWindowUpdate_of_overflows (hsynced : c.reader.Synced)
    (h : Overflows c.sendWindow (increment c.reader.rest)) :
    receiveWindowUpdate c = Action.throw (.streamError 0 .flowControlError) c := by
  rw [receiveWindowUpdate, reading, hsynced.readWindowIncrement_of_overflows h]
  simp only [updateSendWindow, reading, raised_of_overflows h]

theorem handleSettings_of_implemented (h : c.remoteSettings.state = .implemented) :
    handleSettings c = Action.throw (connectionError .protocolError) c := if_pos h

theorem handleSettings_of_error (h : c.remoteSettings.state ≠ .implemented) {e : Thrown}
    (he : Settings.read c.reader.rest = .error e) : handleSettings c = Action.throw e c := by
  rw [handleSettings, if_neg h, reading, he]

/-- A frame of the connection that is contained does not see more bytes. -/
theorem receive_related (hrest : c.reader.rest.length = header.length)
    (hsize : header.length ≤ c.reader.size) (h : c.Contained header c.reader.rest)
    (tail : List UInt8) :
    (receive host header c).Related Twin
      (receive host header (c.pushBack tail)) := by
  have htwin : Twin c (c.pushBack tail) := ⟨_, rfl⟩
  cases htype : header.type with
  | windowUpdate =>
    simp only [receive, htype]
    refine andThen_related ?_ (consume_twin header.length) fun _ _ h => h
    obtain hlong | ⟨hsynced, hover⟩ := h.update htype
    · refine reading_related ?_ htwin fun increment _ => updateSendWindow_twin increment _ _ htwin
      exact (Reader.readWindowIncrement_pushBack (hrest ▸ hlong) (hlong.trans hsize) tail).symm
    -- too short, but it goes over the limit whatever the missing bytes are
    · have hover' := hover []
      rw [append_nil] at hover'
      rw [receiveWindowUpdate_of_overflows hsynced hover', receiveWindowUpdate_of_overflows
        (c := c.pushBack tail) (hsynced.pushBack tail) (hover tail)]
      exact ⟨rfl, htwin⟩
  | ping =>
    simp only [receive, htype]
    have hlong := h.ping htype
    refine reading_related ?_ htwin fun payload _ => ?_
    · exact (Reader.read_pushBack (hrest ▸ hlong) (hlong.trans hsize) tail).symm
    · split_ifs
      · exact ⟨rfl, htwin⟩
      · exact consume_twin _ _ _ htwin
      · exact ((consume_twin _).andThen (send_twin _)) _ _ htwin
  | settings =>
    simp only [receive, htype]
    split_ifs with hack
    · refine ((Respects.modify ?_).andThen (consume_twin _)) _ _ htwin
      rintro d _ ⟨reader, rfl⟩
      exact ⟨reader, rfl⟩
    · refine andThen_related ?_ ((consume_twin _).andThen (send_twin _)) fun _ _ h => h
      -- settings are read to the end of the reader, so only refused ones are the same
      by_cases himplemented : c.remoteSettings.state = .implemented
      · rw [handleSettings_of_implemented himplemented,
          handleSettings_of_implemented (c := c.pushBack tail) himplemented]
        exact ⟨rfl, htwin⟩
      · obtain ⟨e, he⟩ :=
          (h.settings htype (Bool.eq_false_iff.2 hack)).resolve_left himplemented
        rw [handleSettings_of_error himplemented he, handleSettings_of_error (c := c.pushBack tail)
          himplemented (Settings.read_append_error he tail)]
        exact ⟨rfl, htwin⟩
  | goaway =>
    simp only [receive, htype]
    refine ((Respects.modify ?_).andThen ((consume_twin _).andThen (send_twin _))) _ _ htwin
    rintro d _ ⟨reader, rfl⟩
    exact ⟨reader, rfl⟩
  | unknown code =>
    simp only [receive, htype]
    exact ((skipUnknown_twin host header).andThen (consume_twin _)) _ _ htwin
  | data | headers | priority | pushPromise | continuation | rstStream =>
    simp only [receive, htype]
    exact ⟨rfl, htwin⟩

end Connection

namespace Stream

variable {c : Context}

theorem handleWindowUpdate_of_overflows (hsynced : c.conn.reader.Synced)
    (h : Overflows c.stream.sendWindow (increment c.conn.reader.rest)) :
    handleWindowUpdate c = Action.throw (.streamError c.stream.id .flowControlError) c := by
  rw [handleWindowUpdate, reading, hsynced.readWindowIncrement_of_overflows h]
  simp only [updateSendWindow, reading, raised_of_overflows h]

theorem handleReset_of_synced (hsynced : c.conn.reader.Synced) : handleReset c =
    Action.throw (.streamError c.stream.id
      (getHttp2ErrorCode (readBigEndian (c.conn.reader.rest.take 4))))
      { c with stream := { c.stream with expectingContinuation := false } } := by
  rw [handleReset, reading, hsynced.read]
  rfl

variable (hrest : c.conn.reader.rest.length = header.length)
  (hsize : header.length ≤ c.conn.reader.size) (tail : List UInt8)

include hrest in
theorem handleFragment_related : (handleFragment host header c).Related Twin
    (handleFragment host header (c.pushBack tail)) := by
  have hviewed : (c.pushBack tail).conn.reader.viewed header.length =
      c.conn.reader.viewed header.length := Reader.viewed_pushBack hrest.ge tail
  have hblock : (c.pushBack tail).stream.block = c.stream.block := rfl
  rw [handleFragment, handleFragment, hviewed, hblock]
  cases c.stream.block with
  | none => exact ⟨rfl, _, rfl⟩
  | some written =>
    simp only
    split_ifs
    · exact ⟨rfl, _, rfl⟩
    · exact handleHeader_twin host _ _ _ ⟨_, rfl⟩
    · exact ⟨rfl, _, rfl⟩

include hrest in
theorem handleData_related : (handleData header c).Related Twin
    (handleData header (c.pushBack tail)) := by
  unfold handleData
  split_ifs
  · exact ⟨rfl, _, rfl⟩
  · have hwindow := consumeWindow_twin header.length c (c.pushBack tail) ⟨_, rfl⟩
    have hreader : (consumeWindow header.length c).state.conn.reader = c.conn.reader := by
      obtain ⟨_, _, hstate⟩ := exists_consumeWindow header.length c
      rw [hstate]
    have hreader' : (consumeWindow header.length (c.pushBack tail)).state.conn.reader =
        c.conn.reader.pushBack tail := by
      obtain ⟨_, _, hstate⟩ := exists_consumeWindow header.length (c.pushBack tail)
      rw [hstate]
      rfl
    refine andThen_related (R := fun d d' => Twin d d' ∧ d.conn.reader = c.conn.reader ∧
      d'.conn.reader = c.conn.reader.pushBack tail) ⟨hwindow.thrown, hwindow.state, hreader,
      hreader'⟩ ?_
      fun _ _ h => h.1
    rintro d _ ⟨⟨reader, rfl⟩, hd, hd'⟩
    have hviewed : (c.conn.reader.pushBack tail).viewed header.length =
        c.conn.reader.viewed header.length := Reader.viewed_pushBack hrest.ge tail
    have hreaderEq : reader = c.conn.reader.pushBack tail := hd'
    simp only [hd, hreaderEq, hviewed]
    split_ifs <;> exact ⟨rfl, _, rfl⟩

include hrest hsize in
/-- A frame on a stream that is contained does not see more bytes. -/
theorem handle_related (h : Contained header c.conn.reader.rest c) :
    (handle host header c).Related Twin
    (handle host header (c.pushBack tail)) := by
  have htwin : Twin c (c.pushBack tail) := ⟨_, rfl⟩
  cases htype : header.type with
  | data =>
    simp only [handle, htype]
    exact handleData_related hrest tail
  | headers | pushPromise | continuation =>
    simp only [handle, htype]
    exact handleFragment_related hrest tail
  | windowUpdate =>
    simp only [handle, htype]
    obtain hlong | ⟨hsynced, hover⟩ := h.update htype
    · refine reading_related ?_ htwin fun increment _ => updateSendWindow_twin increment _ _ htwin
      exact (Reader.readWindowIncrement_pushBack (hrest ▸ hlong) (hlong.trans hsize) tail).symm
    · have hover' := hover []
      rw [append_nil] at hover'
      rw [handleWindowUpdate_of_overflows hsynced hover', handleWindowUpdate_of_overflows
        (c := c.pushBack tail)
        (hsynced.pushBack tail) (hover tail)]
      exact ⟨rfl, htwin⟩
  | rstStream =>
    simp only [handle, htype]
    by_cases hlong : 4 ≤ header.length
    · refine reading_related ?_ htwin fun bytes _ => ⟨rfl, _, rfl⟩
      exact (Reader.read_pushBack (hrest ▸ hlong) (hlong.trans hsize) tail).symm
    -- too short, but an internal error whatever follows
    · obtain ⟨hsynced, hinternal⟩ := (h.reset htype).resolve_left hlong
      have hshort : c.conn.reader.rest.length ≤ 4 := by omega
      have hcode : getHttp2ErrorCode (readBigEndian ((c.pushBack tail).conn.reader.rest.take 4)) =
          .internalError := by
        have htake : (c.conn.reader.rest ++ tail).take 4 = c.conn.reader.rest ++
            tail.take (4 - c.conn.reader.rest.length) := by
          rw [take_append, take_of_length_le hshort]
        change getHttp2ErrorCode (readBigEndian ((c.conn.reader.rest ++ tail).take 4)) = _
        rw [htake]
        exact getHttp2ErrorCode_append hinternal _
      rw [handleReset_of_synced hsynced, handleReset_of_synced (c := c.pushBack tail)
        (hsynced.pushBack tail), hcode, take_of_length_le hshort, hinternal]
      exact ⟨rfl, _, rfl⟩
  | unknown code =>
    simp only [handle, htype]
    exact onConnection_twin (Connection.skipUnknown_twin host header) _ _ htwin
  | priority | settings | ping | goaway =>
    simp only [handle, htype]
    exact ⟨rfl, htwin⟩

include hrest hsize in
theorem receive_related (h : c.stream.Admits header → Contained header c.conn.reader.rest c) :
    (receive host header c).Related Twin (receive host header (c.pushBack tail)) := by
  have htwin : Twin c (c.pushBack tail) := ⟨_, rfl⟩
  have hstream : (c.pushBack tail).stream = c.stream := rfl
  rw [receive_eq, receive_eq, hstream]
  split_ifs with hawait
  · exact ⟨rfl, htwin⟩
  · cases hadvance : StreamStateMachine.advance c.stream.id header.type header.flags false
      c.stream.state with
    | error e => exact ⟨rfl, htwin⟩
    | ok state =>
      have hadmits : c.stream.Admits header :=
        ⟨fun hexpecting => by_contra fun hne => hawait ⟨hexpecting, hne⟩, state, hadvance⟩
      obtain ⟨hupdate, hreset⟩ := h hadmits
      refine andThen_related ?_ (finish_twin header.length) fun _ _ h => h
      exact handle_related (c := { c with stream := { c.stream with state } }) hrest hsize tail
        ⟨hupdate, hreset⟩

end Stream

namespace Session

variable {t : Session}

theorem takeHeader_pushBack (hrest : t.conn.reader.rest.length = header.length)
    (tail : List UInt8) :
    (t.pushBack tail).takeHeader header = (t.takeHeader header).pushBack tail := by
  have hviewed : (t.pushBack tail).conn.reader.viewed header.length =
      t.conn.reader.viewed header.length := Reader.viewed_pushBack hrest.ge tail
  rw [takeHeader, hviewed]
  rfl

theorem getOrCreateStream_pushBack (id : ℕ) (tail : List UInt8) (s : Session) :
    getOrCreateStream id (s.pushBack tail) = (getOrCreateStream id s).map (pushBack tail) := by
  refine pushBack_of_twin (getOrCreateStream_twin id) (fun s => ?_) tail s
  unfold getOrCreateStream
  split
  · rfl
  · rfl
  · split_ifs <;> rfl

/-- A stream that was not there is idle. -/
theorem getOrCreateStream_slot (id : ℕ) (s : Session) :
    (getOrCreateStream id s).state.conn = s.conn ∧
      ∀ stream, (getOrCreateStream id s).state.slot id = some (some stream) →
        s.slot id = some (some stream) ∨ stream.state = .idle := by
  unfold getOrCreateStream
  split
  · exact ⟨rfl, fun _ h => .inl h⟩
  · exact ⟨rfl, fun _ h => .inl h⟩
  · split_ifs
    · exact ⟨rfl, fun _ h => .inl h⟩
    · refine ⟨rfl, fun stream h => .inr ?_⟩
      rw [done_state, slot_setSlot_self] at h
      cases h
      rfl

/-- A frame that is contained does not see more bytes. -/
theorem handleFrame_related (host : Host) (hrest : t.conn.reader.rest.length = header.length)
    (hsize : header.length ≤ t.conn.reader.size) (h : t.Contained header t.conn.reader.rest)
    (tail : List UInt8) : (handleFrame host header (t.takeHeader header)).Related Twin
      (handleFrame host header ((t.pushBack tail).takeHeader header)) := by
  rw [takeHeader_pushBack hrest]
  unfold Contained at h
  unfold handleFrame
  split_ifs at h ⊢ with hid
  · obtain ⟨hupdate, hping, hsettings⟩ := h
    have hrelated : (Connection.receive host header (t.takeHeader header).conn).Related
        Connection.Twin
          (Connection.receive host header ((t.takeHeader header).conn.pushBack tail)) :=
      Connection.receive_related (c := (t.takeHeader header).conn) hrest hsize
        ⟨hupdate, hping, hsettings⟩ tail
    obtain ⟨hthrown, reader, hstate⟩ := hrelated
    exact ⟨hthrown, reader, congrArg (fun conn => { t.takeHeader header with conn }) hstate⟩
  · have hcreated := getOrCreateStream_pushBack header.streamId tail (t.takeHeader header)
    obtain ⟨hconn, hslot⟩ := getOrCreateStream_slot header.streamId (t.takeHeader header)
    refine andThen_related
      (R := fun w w' => w' = w.pushBack tail ∧ w.conn = (t.takeHeader header).conn ∧
      ∀ stream, w.slot header.streamId = some (some stream) →
        t.slot header.streamId = some (some stream) ∨ stream.state = .idle)
      ⟨by rw [hcreated]; rfl, by rw [hcreated]; rfl, hconn, hslot⟩ ?_ ?_
    · rintro w _ ⟨rfl, hw, hwslot⟩
      refine andThen_related (R := Twin) ?_ (respondIfDone_twin host header.streamId) fun _ _ h => h
      refine onStream_related ⟨_, rfl⟩ header.streamId fun stream hstream => ?_
      have hreader : w.conn.reader = t.conn.reader := by rw [hw]; rfl
      refine Stream.receive_related (c := ⟨w.conn, stream⟩) (hreader ▸ hrest) (hreader ▸ hsize) tail
        fun hadmits => ?_
      obtain hbefore | hidle := hwslot stream hstream
      · obtain ⟨hupdate, hreset⟩ := h stream hbefore hadmits
        simp only [hreader]
        exact ⟨fun htype => by simpa only [hreader] using hupdate htype,
          fun htype => by simpa only [hreader] using hreset htype⟩
      -- a new stream refuses both frames
      · obtain ⟨-, state, hadvance⟩ := hadmits
        rw [hidle, StreamStateMachine.advance_remote] at hadvance
        refine ⟨fun htype => ?_, fun htype => ?_⟩
        · rw [htype] at hadvance
          cases hadvance
        · rw [htype] at hadvance
          cases hadvance
    · rintro w _ ⟨rfl, -⟩
      exact ⟨_, rfl⟩

/-- A frame that is contained is isolated. -/
theorem isolated_of_contained {s : Session}
    (hupcoming : s.upcoming = some (header, payload)) (hlength : payload.length = header.length)
    (h : ∀ t, s.atFrame = some t → t.Contained header payload) : s.Isolated host := by
  intro a b
  refine rescue_related ?_ handleThrown_twin
  cases ht : s.atFrame with
  | none =>
    rw [receiveFrame_of_refused hupcoming ht, receiveFrame_of_refused hupcoming ht]
    exact ⟨rfl, _, rfl⟩
  | some t =>
    obtain ⟨rfl, hsize, hframe⟩ := receiveFrame_of_atFrame host hupcoming ht
    rw [hframe, hframe]
    have ha := handleFrame_related host hlength hsize (h t ht) a
    have hb := handleFrame_related host hlength hsize (h t ht) b
    exact ⟨ha.thrown.symm.trans hb.thrown, ha.state.symm.trans hb.state⟩

end Session

end Contained

end Congelado.Http2
