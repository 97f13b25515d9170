import Congelado.Http2.Formed

/-!
# The place in the stream of bytes

A frame that was handled should leave the reader behind its payload. It does not if the payload was
taken out with `grow_view`, which moves the reader, and is consumed after that, which moves it once
more if more bytes are there; and if a `StreamError` was thrown, which leaves the payload to be read
as the header of a frame. `Orderly` says when neither happens.
-/

namespace Congelado.Http2

open Codec Attempt Action Transition

/-- What a frame on a stream has to meet for its stream not to be reset. -/
structure Stream.Unharmed (host : Host) (table : HPackTable) (header : FrameHeader)
    (rest : List UInt8) (stream : Stream) : Prop where
  reset : header.type ≠ .rstStream
  closed : stream.state = .halfClosedRemote → header.type ≠ .data ∧ header.type ≠ .headers
  recvWindow : header.type = .data → header.length ≤ stream.recvWindow
  sendWindow : header.type = .windowUpdate →
    (stream.sendWindow + increment rest) % 2 ^ 32 ≤ maxInitialWindowSize
  block : header.has Flags.endHeaders = true →
    let block := stream.block.getD [] ++ rest.take header.length
    ∀ id code, refusal stream.id block (feed host.hit host.width block table) ≠
      some (.streamError id code)

namespace Session

/-- The frame has no payload; or nothing is behind a payload that is taken out, and its stream is
not reset. -/
def OrderlyFrame (host : Host) (s : Session) (header : FrameHeader) (rest : List UInt8) : Prop :=
  header.length = 0 ∨ (header.Viewed host → rest.length ≤ header.length) ∧
    (header.streamId ≠ 0 →
      (s.target header.streamId).Unharmed host s.conn.decodingTable header rest)

/-- What a call has to find: no raise of the windows is due for streams that are there, and the
frame at hand is in order. -/
structure Orderly (host : Host) (s : Session) : Prop where
  raise : s.due = 0
  frame : ∀ header rest, s.upcoming = some (header, rest) → s.OrderlyFrame host header rest

end Session

def OrderlyStep (host : Host) (s : Session) : Label → Prop
  | .read bytes => (s.pushBack bytes).Orderly host
  | .reply _ _ => True

/-! ### Readers -/

namespace Reader

variable {reader : Reader} {length : ℕ}

/-- A payload with nothing behind it may be taken out and consumed. -/
theorem growView_consume (h : length = 0 ∨ reader.rest.length ≤ length) :
    (reader.growView length).consume length = reader.consume length := by
  obtain rfl | h := h
  · rfl
  · rw [consume, consume, growView, List.drop_drop, List.drop_eq_nil_of_le h,
      List.drop_eq_nil_of_le (by omega)]

end Reader

/-! ### The connection -/

namespace Connection

variable {c : Connection} {host : Host} {header : FrameHeader}

theorem updateSendWindow_reader (increment : ℕ) : Keeps SameReader (updateSendWindow increment) :=
  Keeps.reading fun _ _ => rfl

theorem handleSettings_reader : Keeps SameReader handleSettings := by
  intro c
  unfold handleSettings
  split_ifs
  · rfl
  · refine Keeps.reading (fun settings => ?_) c
    refine Keeps.andThen ?_ (Keeps.andThen ?_ ?_)
    · exact fun _ => rfl
    · intro d
      unfold settleWindow
      split_ifs
      · rfl
      · refine (updateSendWindow_reader _).andThen ?_ d
        exact fun _ => rfl
    · exact fun _ => rfl

/-- A frame of the connection is consumed. -/
theorem receive_reader
    (h : header.length = 0 ∨ (header.Viewed host → c.reader.rest.length ≤ header.length)) :
    (receive host header c).Ends (fun d => d.reader = c.reader.consume header.length)
      fun _ _ => True := by
  cases htype : header.type with
  | windowUpdate =>
    simp only [receive, htype, andThen_ends, receiveWindowUpdate, consume, modify_ends]
    refine Outcome.ends_iff.2 ⟨fun _ => ?_, fun _ _ => ⟨⟩⟩
    rw [Keeps.reading updateSendWindow_reader c]
  | ping =>
    simp only [receive, htype, reading_ends]
    refine ⟨fun _ _ => ⟨⟩, fun payload _ => ?_⟩
    split_ifs
    · trivial
    · rfl
    · rfl
  | settings =>
    simp only [receive, htype]
    split_ifs
    · rfl
    · simp only [andThen_ends, consume, send, modify_ends]
      refine Outcome.ends_iff.2 ⟨fun _ => ?_, fun _ _ => ⟨⟩⟩
      rw [emit, handleSettings_reader c]
  | goaway =>
    simp only [receive, htype]
    rfl
  | unknown code =>
    simp only [receive, htype, andThen_ends, skipUnknown, consume, modify_ends]
    split_ifs with hextensions
    · refine Reader.growView_consume (h.imp_right fun h => h ?_)
      rwa [FrameHeader.Viewed, htype]
    · rfl
  | data | headers | priority | pushPromise | continuation | rstStream =>
    simp only [receive, htype]
    trivial

end Connection

/-! ### Streams -/

namespace Stream

variable {c : Context} {host : Host} {header : FrameHeader}

/-- A stream that is not to be reset is not named by what is thrown. -/
theorem Unharmed.unnamed {e : Thrown}
    (h : c.stream.Unharmed host c.conn.decodingTable header c.conn.reader.rest)
    (hsynced : c.conn.reader.Synced) (hcause : Cause host header c e) : e.Unnamed := by
  cases hcause with
  | connection | ahead | headers => exact nofun
  | closed _ hstate htype => exact absurd htype (not_or.2 (h.closed hstate))
  | connWindow =>
    intro id code hthrown
    cases hthrown
    rfl
  | window htype hlt => exact absurd hlt (not_lt.2 (h.recvWindow htype))
  | refused _ hend hrefused =>
    intro id code hthrown
    exact absurd (hthrown ▸ hrefused) (h.block hend id code)
  | raised htype hread hraised =>
    rw [hsynced.readWindowIncrement] at hread
    split_ifs at hread
    cases hread
    obtain hraised | hraised := hraised
    · rw [raised_of_le (h.sendWindow htype) hraised]
      exact nofun
    · exact (throws_of_raised hraised).unnamed
  | reset _ htype => exact absurd htype h.reset

/-- A frame that is accepted is consumed, and one without a payload is consumed in any case. -/
theorem receive_consumes (hid : header.streamId ≠ 0) (hlength : header.length = 0 ∨
      (header.Viewed host → c.conn.reader.rest.length ≤ header.length)) :
    (receive host header c).Ends (fun d => d.conn.reader = c.conn.reader.consume header.length)
      fun _ d => header.length = 0 → d.conn.reader = c.conn.reader := by
  refine receive_ends (fun _ => rfl) (fun _ _ _ => rfl) fun state _ _ => ?_
  refine (Outcome.Ends.of_state (handle_handled host header _)).mono
    (fun d hd => ?_) fun _ d hd hzero => ?_
  · show d.conn.reader.consume header.length = _
    obtain hd | ⟨hviewed, hd⟩ := hd.reader hid
    · rw [hd]
    · rw [hd]
      exact Reader.growView_consume (hlength.imp_right fun h => h hviewed)
  · obtain hd | ⟨-, hd⟩ := hd.reader hid
    · exact hd
    · rw [hd, hzero]
      rfl

end Stream

/-! ### The session -/

namespace Session

variable {s t : Session} {host : Host} {header : FrameHeader} {id : ℕ}

theorem unnamed_of_nextHeader_error {e : Thrown} (h : s.nextHeader = .error e) : e.Unnamed := by
  rw [nextHeader] at h
  cases hread : s.conn.reader.read headerSize with
  | error e' =>
    rw [hread] at h
    cases h
    obtain ⟨-, rfl⟩ := Reader.of_read_error hread
    exact nofun
  | ok bytes =>
    rw [hread] at h
    change readFrameHeader _ bytes = _ at h
    unfold readFrameHeader at h
    split_ifs at h
    · cases h
      exact nofun
    · simp only at h
      split_ifs at h
      cases h
      exact nofun

/-- No stream is there to be raised. -/
theorem raiseWindows_of_due (h : 0 < s.conn.remoteSettings.deltaWindowOnSettings → s.streams = []) :
    (raiseWindows s).Ends (fun t => t.streams = s.streams) fun _ _ => False := by
  unfold raiseWindows
  split_ifs with hdelta
  · rw [h hdelta]
    exact h hdelta
  · rfl

/-- A header is read, and no stream is reset. -/
theorem receiveHeader_orderly (hsafe : s.safeHeader = none)
    (hsize : headerSize ≤ s.conn.reader.size)
    (hdue : s.due = 0) :
    (receiveHeader s).Ends (fun t => t.streams = s.streams) fun e _ => e.Unnamed := by
  refine receiveHeader_ends.2 ⟨fun e he => unnamed_of_nextHeader_error he, fun header _ => ?_⟩
  split_ifs
  · exact nofun
  · unfold settleSettings
    split_ifs with hstate
    · simp only [andThen_ends, onConnection, zoom_ends, modify_ends]
      refine (raiseWindows_of_due fun hdelta => ?_).mono (fun t ht => ht) fun _ _ he => he.elim
      have hmul : s.due = s.streams.length * s.conn.remoteSettings.deltaWindowOnSettings :=
        if_pos ⟨hsafe, hsize, hstate, hdelta⟩
      rw [hdue, eq_comm, mul_eq_zero] at hmul
      exact List.eq_nil_of_length_eq_zero (by exact_mod_cast hmul.resolve_right hdelta.ne')
    · rfl

/-- A frame in order is consumed, also if its stream is reset. -/
theorem handleFrame_orderly (hsynced : s.conn.reader.Synced)
    (h : s.OrderlyFrame host header s.conn.reader.rest) :
    (handleFrame host header (s.takeHeader header)).Ends
      (fun t => t.conn.reader = s.conn.reader.consume header.length)
      fun e t => ∀ id code, e = .streamError id code → id ≠ 0 →
        t.conn.reader = s.conn.reader.consume header.length := by
  unfold handleFrame
  split_ifs with hid
  · rw [onConnection, zoom_ends]
    have hreader := Connection.receive_reader (c := (s.takeHeader header).conn)
      (h.imp_right fun h => h.1)
    refine (hreader.and (Connection.receive_throws host header _)).mono (fun c hc => hc.1) ?_
    intro e c he id code hthrown hne
    exact absurd (he.2.unnamed id code hthrown) hne
  · simp only [andThen_ends]
    refine (getOrCreateStream_spec header.streamId (s.takeHeader header)).mono ?_ ?_
    · rintro t ⟨hsame, hslot⟩
      have hconn : t.conn = (s.takeHeader header).conn := by
        obtain rfl | ⟨-, rfl⟩ := hsame <;> rfl
      have hrespond : ∀ u : Session, u.conn.reader = s.conn.reader.consume header.length →
          (respondIfDone host header.streamId u).Ends
            (fun t => t.conn.reader = s.conn.reader.consume header.length)
            fun e t => ∀ id code, e = .streamError id code → id ≠ 0 →
              t.conn.reader = s.conn.reader.consume header.length := by
        intro u hu
        obtain ⟨_, _, hconn⟩ := respondIfDone_conn host header.streamId u
        have hreader := (congrArg Connection.reader hconn).trans hu
        exact Outcome.ends_iff.2 ⟨fun _ => hreader, fun _ _ _ _ _ _ => hreader⟩
      rw [onStream_ends hslot, hconn]
      refine ((Stream.receive_consumes (c := ⟨(s.takeHeader header).conn, _⟩) hid
        (h.imp_right fun h => h.1)).and (Stream.receive_cause host header _)).mono
        (fun c hc => hrespond _ hc.1) ?_
      rintro e c ⟨hreader, hcause⟩ id code hthrown hne
      obtain hzero | ⟨-, hunharmed⟩ := h
      · exact (hreader hzero).trans (by rw [hzero]; rfl)
      · exact absurd ((hunharmed hid).unnamed hsynced hcause id code hthrown) hne
    · rintro e t ⟨-, code, lastStreamId, rfl⟩
      exact nofun

/-- The reader counts the bytes it has, and it is behind the frame that was at hand. -/
def Advanced (s t : Session) : Prop :=
  t.conn.reader.Synced ∧ ∀ header rest, s.upcoming = some (header, rest) →
    header.length ≤ rest.length ∧ t.conn.reader.rest = rest.drop header.length

/-- What a read does that finds the session in order. -/
theorem onRead_orderly {bytes : List UInt8} (hsynced : s.conn.reader.Synced) (hbytes : bytes ≠ [])
    (h : (s.pushBack bytes).Orderly host) :
    (s.onRead host bytes).status = .running →
      Advanced (s.pushBack bytes) (s.onRead host bytes) := by
  have hpushed := hsynced.pushBack bytes
  refine onRead_running hbytes (receiveFrame_ends
    (P := fun t => t.streams = s.streams ∧ t.conn.reader.Synced) (fun _ => ⟨rfl, hpushed⟩)
    (fun hsafe hsize => ?_) ?_ ?_)
  · refine ((receiveHeader_orderly hsafe hsize h.raise).and receiveHeader_spec).mono ?_ ?_
    · rintro t ⟨hstreams, header, -, -, -, hreader⟩
      exact ⟨hstreams, hreader ▸ hpushed.consume headerSize⟩
    · rintro e t ⟨he, -⟩ id code hthrown hne
      exact absurd (he id code hthrown) hne
  · intro t _ hnone hreader
    refine ⟨?_, fun header rest hupcoming => ?_⟩
    · obtain hreader | hreader := hreader
      · exact hreader ▸ hpushed
      · exact hreader ▸ hpushed.consume headerSize
    · rw [hnone] at hupcoming
      cases hupcoming
  · rintro header t ⟨hstreams, ht⟩ hheaded hupcoming hsize
    have hadvanced : ∀ u : Session, u.conn.reader = t.conn.reader.consume header.length →
        Advanced (s.pushBack bytes) u := by
      intro u hu
      refine ⟨hu ▸ ht.consume header.length, fun header' rest hsame => ?_⟩
      rw [hupcoming] at hsame
      cases hsame
      exact ⟨ht ▸ hsize, hu ▸ rfl⟩
    have hframe : t.OrderlyFrame host header t.conn.reader.rest := by
      have htarget : t.target header.streamId = (s.pushBack bytes).target header.streamId := by
        rw [target, target, slot, hstreams, hheaded.initialWindowSize]
        rfl
      rw [OrderlyFrame, htarget, hheaded.decodingTable]
      exact h.frame header _ hupcoming
    refine (handleFrame_orderly ht hframe).mono hadvanced fun e u hu id code hthrown hne _ => ?_
    exact hadvanced _ (hu id code hthrown hne)

end Session

/-- In order, the reader always counts the bytes it has. -/
theorem synced_of_orderly {host : Host} {t : Session}
    (h : (server host).Run (OrderlyStep host) {} t)
    (hrunning : t.status = .running) : t.conn.reader.Synced := by
  induction h with
  | refl => rfl
  | @tail s u l _ hok hnext ih =>
    cases l with
    | read bytes =>
      simp only [server, Option.ite_none_right_eq_some, Option.some.injEq] at hnext
      obtain ⟨⟨hs, hbytes⟩, rfl⟩ := hnext
      exact (Session.onRead_orderly (ih hs) hbytes hok hrunning).1
    | reply id response =>
      obtain ⟨pending, -, rfl | ⟨stream, -, hsends⟩⟩ := Session.lateReply_sends hnext
      · exact ih hrunning
      · rw [hsends.conn]
        exact ih (hsends.status.symm.trans hrunning)

/-- As long as the frames are in order, each one that does not end the connection moves the reader
by its header and its length. -/
theorem advanced_of_orderly {host : Host} {s t : Session} {bytes : List UInt8}
    (h : (server host).Run (OrderlyStep host) {} s) (hok : OrderlyStep host s (.read bytes))
    (hnext : (server host).next (.read bytes) s = some t) (hrunning : t.status = .running) :
    Session.Advanced (s.pushBack bytes) t := by
  simp only [server, Option.ite_none_right_eq_some, Option.some.injEq] at hnext
  obtain ⟨⟨hs, hbytes⟩, rfl⟩ := hnext
  exact Session.onRead_orderly (synced_of_orderly h hs) hbytes hok hrunning

theorem advanced_of_orderly_request : ∃ t,
    (server keepingHost).next (.read smallRequest) {} = some t ∧ t.pending = [1] ∧
      Session.Advanced (Session.pushBack smallRequest {}) t := by
  have hupcoming : (Session.pushBack smallRequest {}).upcoming =
      some (⟨1, .headers, 5, 1⟩, [0x82]) := by decide +kernel
  have hblock : refusal 1 [0x82] (feed keepingHost.hit keepingHost.width [0x82] {}) = none := by
    decide +kernel
  have horderly : OrderlyStep keepingHost {} (.read smallRequest) := by
    refine ⟨by decide +kernel, fun header rest h => .inr ?_⟩
    rw [hupcoming] at h
    cases h
    refine ⟨fun _ => le_rfl, fun _ => ⟨nofun, nofun, nofun, nofun, fun _ id code hrefused => ?_⟩⟩
    exact absurd (hblock.symm.trans hrefused) nofun
  obtain ⟨t, hnext, hpending, hrunning⟩ : ∃ t,
      (server keepingHost).next (.read smallRequest) {} = some t ∧ t.pending = [1] ∧
        t.status = .running := System.exists_of_any (by decide +kernel)
  exact ⟨t, hnext, hpending, advanced_of_orderly .refl horderly hnext hrunning⟩

/-- A stream is opened. -/
def opening : List UInt8 :=
    Frame.write { type := .headers, flags := Flags.endHeaders, streamId := 1 }

/-- The stream is reset. -/
def resetting : List UInt8 :=
    Frame.write { type := .rstStream, streamId := 1, payload := [0, 0, 0, 8] }

/-- The payload of a `RST_STREAM` stays in the reader. -/
theorem reset_left_behind : ∃ s t, (server keepingHost).Run System.Any {} s ∧
    (server keepingHost).next (.read resetting) s = some t ∧ t.status = .running ∧
    t.conn.reader.rest = [0, 0, 0, 8] ∧ ¬Session.Advanced (s.pushBack resetting) t := by
  obtain ⟨s, hrun, hupcoming, hread⟩ : ∃ s, (server keepingHost).Run System.Any {} s ∧
      (s.pushBack resetting).upcoming = some (⟨4, .rstStream, 0, 1⟩, [0, 0, 0, 8]) ∧
        ((server keepingHost).next (.read resetting) s).any fun t =>
          t.status = .running ∧ t.conn.reader.rest = [0, 0, 0, 8] :=
    (server keepingHost).exists_run [.read opening] (by decide +kernel)
  obtain ⟨t, hnext, hrunning, hrest⟩ := System.exists_of_any hread
  refine ⟨s, t, hrun, hnext, hrunning, hrest, fun h => ?_⟩
  have hadvanced := (h.2 _ _ hupcoming).2
  rw [hrest] at hadvanced
  cases hadvanced

end Congelado.Http2
