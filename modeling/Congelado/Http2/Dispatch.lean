import Congelado.Http2.Slots

/-!
# Requests are dispatched once

A request should go to its handler when its header block and its side of the stream have ended, and
only then. The state machine takes the bit of `END_STREAM` on every type of frame, `receive` hands
the request over when the peer has closed its side, whatever has become of the header block, and it
does so after every frame on the stream from then on. `ProperFrame` says what a frame has to be for
none of this to matter.

The log of a session has the frames it has received and the requests it has dispatched, so that the
property is one of logs (`DispatchedOnce`).
-/

namespace Congelado.Http2

open Attempt Action List Transition

variable {header : FrameHeader} {event : Event}

/-! ### Logs -/

section Logs

variable (id : ℕ) (log : List Event)

/-- Whether the last header block of a stream is still open, after one more event. -/
def Event.blockOpen (isOpen : Option Bool) : Event → Option Bool
  | received header _ =>
    if header.streamId = id ∧ header.type.isFragment then some (!header.has Flags.endHeaders)
    else isOpen
  | _ => isOpen

/-- The request of a stream goes to its handler. -/
def Event.dispatches : Event → Bool
  | dispatched request _ => request.streamId = id
  | _ => false

/-- Whether the last header block of a stream is still open. -/
def blockOpen : Option Bool := log.foldl (Event.blockOpen id) none

def dispatches : ℕ := log.countP (Event.dispatches id)

/-- A frame with `END_HEADERS` has ended the header block of a stream. -/
def HeadersEnded : Prop := blockOpen id log = some false

instance : Decidable (HeadersEnded id log) := inferInstanceAs (Decidable (_ = _))

/-- A `HEADERS` or `DATA` frame with `END_STREAM` was received on a stream. -/
def StreamEnded : Prop :=
  ∃ header payload, .received header payload ∈ log ∧ header.streamId = id ∧
    (header.type = .headers ∨ header.type = .data) ∧ header.has Flags.endStream = true

end Logs

/-- Each request was dispatched at most once, and only when it was complete. -/
structure DispatchedOnce (log : List Event) : Prop where
  once : ∀ id, dispatches id log ≤ 1
  complete : ∀ before request response after,
    log = before ++ .dispatched request response :: after →
    HeadersEnded request.streamId before ∧ StreamEnded request.streamId before

variable {log log' : List Event} {id : ℕ}

theorem blockOpen_append (event : Event) :
    blockOpen id (log ++ [event]) = event.blockOpen id (blockOpen id log) := by
  rw [blockOpen, foldl_append]
  rfl

theorem dispatches_append (event : Event) :
    dispatches id (log ++ [event]) = dispatches id log + if event.dispatches id then 1 else 0 := by
  rw [dispatches, countP_append, countP_singleton]
  rfl

/-- What comes after the last event has to be shown of it only. -/
theorem DispatchedOnce.append (h : DispatchedOnce log)
    (hevent : ∀ request response, event = .dispatched request response →
      dispatches request.streamId log = 0 ∧ HeadersEnded request.streamId log ∧
        StreamEnded request.streamId log) : DispatchedOnce (log ++ [event]) := by
  refine ⟨fun id => ?_, fun before request response after hsplit => ?_⟩
  · rw [dispatches_append]
    split_ifs with hdispatches
    · cases event with
      | dispatched request response =>
        obtain rfl : request.streamId = id := of_decide_eq_true hdispatches
        rw [(hevent request response rfl).1]
      | received | fed | sent => cases hdispatches
    · exact h.once id
  · obtain rfl | ⟨after, last, rfl⟩ := eq_nil_or_concat after
    · obtain ⟨rfl, hlast⟩ := append_inj' hsplit rfl
      exact (hevent request response (singleton_inj.1 hlast)).2
    · rw [concat_eq_append, ← cons_append, ← append_assoc] at hsplit
      exact h.complete before request response after (append_inj' hsplit rfl).1

/-- A stream has the same of both logs. -/
structure Alike (id : ℕ) (log log' : List Event) : Prop where
  blockOpen : blockOpen id log' = blockOpen id log
  dispatches : dispatches id log' = dispatches id log

/-- An event that is not one of the stream. -/
theorem Alike.foreign (h : event.Foreign id) : Alike id log (log ++ [event]) := by
  cases event with
  | received header payload =>
    refine ⟨?_, dispatches_append _⟩
    rw [blockOpen_append]
    exact if_neg fun hsame => h hsame.1
  | dispatched request response =>
    have hother : Event.dispatches id (.dispatched request response) = false := decide_eq_false h
    refine ⟨blockOpen_append _, ?_⟩
    rw [dispatches_append, hother]
    rfl
  | fed | sent => exact ⟨blockOpen_append _, dispatches_append _⟩

/-- Blocks that were decoded. -/
theorem Alike.fed (streamId : ℕ) (blocks : List (List UInt8)) :
    Alike id log (log ++ blocks.map (.fed streamId)) := by
  refine closed_map (D := Alike id log) (fun log' block h => ?_) blocks ⟨rfl, rfl⟩
  exact ⟨(blockOpen_append _).trans h.blockOpen, (dispatches_append _).trans h.dispatches⟩

/-! ### The condition -/

/-- `END_STREAM` is set on `DATA`, or on `HEADERS` that end the header block, and on no other type.
When the peer has closed its side it sends nothing that the stream accepts. -/
structure Session.ProperFrame (s : Session) (header : FrameHeader) : Prop where
  endStream : header.has Flags.endStream = true →
    header.type = .data ∨ header.type = .headers ∧ header.has Flags.endHeaders = true
  remoteDone : ∀ stream, s.slot header.streamId = some (some stream) → stream.remoteDone = true →
    header.type = .data ∨ header.type = .headers ∨ header.type = .rstStream

/-- The frame at hand is proper, or one of the connection. -/
def ProperStep (s : Session) : Label → Prop
  | .read bytes => ∀ header rest, (s.pushBack bytes).upcoming = some (header, rest) →
    header.streamId ≠ 0 → (s.pushBack bytes).ProperFrame header
  | .reply _ _ => True

/-! ### Streams -/

namespace StreamStateMachine

variable {type : FrameType} {flags : UInt8} {state : StreamState}

/-- The ways into the state in which a request is complete. -/
theorem of_advance_halfClosedRemote (h : advance id type flags false state = .ok .halfClosedRemote)
    (hstate : state ≠ .halfClosedRemote) :
    flags &&& Flags.endStream ≠ 0 ∧ (state = .idle ∧ type = .headers ∨ state = .opened) := by
  rw [advance_remote] at h
  cases state <;> grind [illegal]

/-- The ways into the open state. -/
theorem of_advance_opened (h : advance id type flags false state = .ok .opened) :
    state = .idle ∧ type = .headers ∨ state = .opened := by
  rw [advance_remote] at h
  cases state <;> grind [illegal]

/-- What a stream accepts when the peer has closed its side. -/
theorem of_advance_ok (h : advance id type flags false .halfClosedRemote = .ok state) :
    type ≠ .data ∧ type ≠ .headers := by
  refine ⟨?_, ?_⟩
  · rintro rfl
    rw [advance_remote] at h
    cases h
  · rintro rfl
    rw [advance_remote] at h
    cases h

end StreamStateMachine

namespace Stream

/-- What comes of a stream by a frame that it accepts. -/
structure Progress (header : FrameHeader) (before after : Stream) : Prop where
  reset : header.type ≠ .rstStream
  awaited : before.expectingContinuation = true → header.type = .continuation
  advance : StreamStateMachine.advance before.id header.type header.flags false before.state =
    .ok after.state
  remoteDone : after.remoteDone = (before.remoteDone || decide (after.state = .halfClosedRemote))
  expecting : after.expectingContinuation =
    ((if header.type.isFragment then !header.has Flags.endHeaders
      else before.expectingContinuation) && decide (after.state ≠ .closed))

/-- Only fragments say whether a `CONTINUATION` is expected. -/
theorem handle_expecting (host : Host) (header : FrameHeader) (c : Context) :
    (handle host header c).Ends
    (fun d => header.type ≠ .rstStream ∧ d.stream.expectingContinuation =
      if header.type.isFragment then !header.has Flags.endHeaders
        else c.stream.expectingContinuation)
      fun _ _ => True := by
  cases hfragment : header.type.isFragment with
  | false =>
    by_cases hreset : header.type = .rstStream
    · simp only [handle, hreset, handleReset, reading_ends, andThen_ends, modify_ends]
      exact ⟨fun _ _ => ⟨⟩, fun _ _ => ⟨⟩⟩
    · exact Outcome.ends_iff.2 ⟨fun _ => ⟨hreset,
        (handle_handled host header c).expecting hfragment hreset⟩, fun _ _ => ⟨⟩⟩
  | true =>
    have hreset : header.type ≠ .rstStream := by
      intro htype
      rw [htype] at hfragment
      cases hfragment
    have hhandle : handle host header = handleFragment host header := by
      unfold handle
      obtain htype | htype | htype := FrameType.isFragment_iff.1 hfragment <;> rw [htype]
    rw [hhandle, handleFragment]
    split
    · trivial
    · simp only
      split_ifs with hlength hend
      · trivial
      · refine Outcome.ends_iff.2 ⟨fun _ => ⟨hreset, ?_⟩, fun _ _ => ⟨⟩⟩
        obtain ⟨_, _, _, _, _, _, _, hstate, -⟩ := exists_handleHeader host _ _
        rw [hstate, hend]
        rfl
      · exact ⟨hreset, by rw [Bool.eq_false_iff.2 hend]; rfl⟩

theorem receive_progress (host : Host) (header : FrameHeader) (c : Context) :
    (receive host header c).Ends (fun d => Progress header c.stream d.stream) fun _ _ => True := by
  refine receive_ends ⟨⟩ (fun _ _ => ⟨⟩) fun state hexpecting hstate => ?_
  refine ((Outcome.Ends.of_state (handle_handled host header _)).and
    (handle_expecting host header _)).mono ?_ fun _ _ _ => ⟨⟩
  rintro d ⟨hd, hreset, hnext⟩
  refine ⟨hreset, hexpecting, hstate.trans (congrArg _ hd.state.symm), ?_, ?_⟩
  · show (d.stream.remoteDone || _) = _
    rw [hd.remoteDone]
    rfl
  · show (d.stream.expectingContinuation && _) = _
    rw [hnext]
    rfl

/-- What a session knows of a stream by its log. -/
structure Tracked (key : ℕ) (log : List Event) (stream : Stream) : Prop where
  remoteDone : stream.remoteDone = true ↔ stream.state = .halfClosedRemote
  block : stream.state = .opened → blockOpen key log = some stream.expectingContinuation
  fresh : stream.remoteDone = false → dispatches key log = 0

theorem Tracked.alike {stream : Stream} (h : stream.Tracked id log) (hlog : Alike id log log') :
    stream.Tracked id log' :=
  ⟨h.remoteDone, fun hstate => hlog.blockOpen.trans (h.block hstate),
    fun hdone => hlog.dispatches.trans (h.fresh hdone)⟩

section Received

variable {before after : Stream} (payload : List UInt8)

/-- A stream whose peer has closed its side accepts nothing that is proper. -/
theorem Tracked.not_remoteDone (h : before.Tracked id log)
    (hprogress : Progress header before after)
    (hproper : before.remoteDone = true →
      header.type = .data ∨ header.type = .headers ∨ header.type = .rstStream) :
    before.remoteDone = false := by
  rw [← Bool.not_eq_true]
  intro hdone
  have hadvance := hprogress.advance
  rw [h.remoteDone.1 hdone] at hadvance
  obtain ⟨hdata, hheaders⟩ := StreamStateMachine.of_advance_ok hadvance
  obtain htype | htype | htype := hproper hdone
  · exact hdata htype
  · exact hheaders htype
  · exact hprogress.reset htype

/-- What the frame makes of the block. -/
theorem blockOpen_received (hid : header.streamId = id) :
    blockOpen id (log ++ [.received header payload]) =
      if header.type.isFragment then some (!header.has Flags.endHeaders) else blockOpen id log := by
  rw [blockOpen_append, Event.blockOpen]
  simp only [hid, true_and]

/-- A stream is tracked after a frame that it accepts. -/
theorem Tracked.received (h : before.Tracked id log) (hprogress : Progress header before after)
    (hid : header.streamId = id) (hdone : before.remoteDone = false) :
    after.Tracked id (log ++ [.received header payload]) := by
  have hdispatches : dispatches id (log ++ [.received header payload]) = 0 := by
    rw [dispatches_append, h.fresh hdone]
    rfl
  refine ⟨?_, fun hstate => ?_, fun _ => hdispatches⟩
  · rw [hprogress.remoteDone, hdone, Bool.false_or, decide_eq_true_iff]
  · have hadvance := hprogress.advance
    rw [hstate] at hadvance
    rw [blockOpen_received payload hid, hprogress.expecting, hstate]
    simp only [ne_eq, reduceCtorEq, not_false_eq_true, decide_true, Bool.and_true]
    obtain ⟨-, htype⟩ | hopened := StreamStateMachine.of_advance_opened hadvance
    · rw [htype]
      rfl
    · rw [h.block hopened]
      split_ifs <;> rfl

/-- A request that is complete by now. -/
theorem Tracked.complete (h : before.Tracked id log) (hprogress : Progress header before after)
    (hid : header.streamId = id) (hdone : before.remoteDone = false)
    (hend : header.has Flags.endStream = true →
      header.type = .data ∨ header.type = .headers ∧ header.has Flags.endHeaders = true)
    (hafter : after.remoteDone = true) :
    HeadersEnded id (log ++ [.received header payload]) ∧
      StreamEnded id (log ++ [.received header payload]) := by
  rw [hprogress.remoteDone, hdone, Bool.false_or, decide_eq_true_iff] at hafter
  have hadvance := hprogress.advance
  rw [hafter] at hadvance
  have hbefore : before.state ≠ .halfClosedRemote := by
    rw [Ne, ← h.remoteDone, hdone]
    exact Bool.false_ne_true
  obtain ⟨hflag, hfrom⟩ := StreamStateMachine.of_advance_halfClosedRemote hadvance hbefore
  have hhas : header.has Flags.endStream = true := decide_eq_true hflag
  refine ⟨?_, header, payload, mem_append_right _ (.head _), hid, ?_, hhas⟩
  · rw [HeadersEnded, blockOpen_received payload hid]
    obtain htype | ⟨htype, hheaders⟩ := hend hhas
    · -- `DATA` is accepted by an open stream that expects no more fragments
      obtain ⟨-, hheaders⟩ | hopened := hfrom
      · rw [htype] at hheaders
        cases hheaders
      · have hexpecting : before.expectingContinuation = false := by
          rw [← Bool.not_eq_true]
          intro hexpecting
          rw [hprogress.awaited hexpecting] at htype
          cases htype
        rw [htype, h.block hopened, hexpecting]
        rfl
    · rw [htype, hheaders]
      rfl
  · obtain htype | ⟨htype, -⟩ := hend hhas
    · exact .inr htype
    · exact .inl htype

end Received

end Stream

/-! ### Sessions -/

/-- What is known of a slot. -/
def TrackedSlot (id : ℕ) (log : List Event) : Option (Option Stream) → Prop
  | none => dispatches id log = 0
  | some none => True
  | some (some stream) => stream.Tracked id log

/-- Requests are dispatched as they should be. -/
def dispatchLedger : Ledger where
  shared log _ := DispatchedOnce log
  slot := TrackedSlot

theorem dispatchLedger_lawful : dispatchLedger.Lawful where
  sent _ _ _ h := h.append nofun
  foreign id log slot event hevent h := by
    have halike : Alike id log (log ++ [event]) := .foreign hevent
    match slot with
    | none => exact halike.dispatches.trans h
    | some none => trivial
    | some (some stream) => exact Stream.Tracked.alike h halike
  closed _ _ := trivial
  inert _ _ _ _ _ h := ⟨h.remoteDone, h.block, h.fresh⟩

/-- What a stream makes of a proper frame. -/
theorem Stream.receive_tracked {host : Host} {c : Context}
    {payload : List UInt8} (honce : DispatchedOnce log)
    (hlog : c.conn.log = log ++ [.received header payload])
    (hbefore : c.stream.Tracked header.streamId log)
    (hrequest : c.stream.request.streamId = header.streamId)
    (hend : header.has Flags.endStream = true →
      header.type = .data ∨ header.type = .headers ∧ header.has Flags.endHeaders = true)
    (hclosed : c.stream.remoteDone = true →
      header.type = .data ∨ header.type = .headers ∨ header.type = .rstStream) :
    (receive host header c).Ends (Session.Accepted dispatchLedger header.streamId)
      (Session.Refused dispatchLedger DispatchedOnce header.streamId) := by
  have htouched := receive_touches host header c
  obtain ⟨blocks, hblocks⟩ := htouched.log
  have honceAfter : DispatchedOnce (receive host header c).state.conn.log := by
    rw [hblocks, hlog]
    exact closed_map (fun _ _ h => h.append nofun) blocks (honce.append nofun)
  refine Outcome.ends_iff.2 ⟨fun hdone => ?_, fun e he => ⟨honceAfter, fun _ _ => honceAfter⟩⟩
  have hprogress := (Outcome.ends_iff.1 (receive_progress host header c)).1 hdone
  set d := (receive host header c).state
  have halike : Alike header.streamId (log ++ [.received header payload]) d.conn.log := by
    rw [hblocks, hlog]
    exact Alike.fed _ blocks
  have hfresh := hbefore.not_remoteDone hprogress hclosed
  have hafter := (hbefore.received payload hprogress rfl hfresh).alike halike
  refine ⟨honceAfter, hafter,
    fun hremote => ⟨?_, hafter.remoteDone, fun hopened => ?_, fun hfalse => ?_⟩⟩
  · -- it was not dispatched before, and is complete by now
    obtain ⟨hheaders, header', payload', hmem, hstream⟩ :=
      hbefore.complete payload hprogress rfl hfresh hend hremote
    refine honceAfter.append fun request response hevent => ?_
    cases hevent
    rw [htouched.requestId, hrequest]
    refine ⟨?_, halike.blockOpen.trans hheaders, header', payload', ?_, hstream⟩
    · refine halike.dispatches.trans ?_
      rw [dispatches_append, hbefore.fresh hfresh]
      rfl
    · rw [hblocks, hlog]
      exact mem_append_left _ hmem
  · exact absurd (hopened.symm.trans (hafter.remoteDone.1 hremote)) nofun
  · exact absurd (hremote.symm.trans hfalse) nofun

/-- As long as the frames are proper, each request is dispatched at most once, and only when a frame
with `END_HEADERS` has ended its header block and a frame with `END_STREAM` its stream. -/
theorem dispatchedOnce_of_proper {host : Host} {t : Session}
    (h : (server host).Run ProperStep {} t) : DispatchedOnce t.conn.log := by
  have hempty : DispatchedOnce [] := by
    refine ⟨fun _ => Nat.zero_le 1, fun before request response after hsplit => ?_⟩
    exact absurd hsplit.symm (append_ne_nil_of_right_ne_nil _ (cons_ne_nil _ _))
  refine (holds_of_run dispatchLedger_lawful h (fun _ _ hlog => hlog)
    (fun _ _ hlog => hlog.append nofun)
    hempty (fun _ => rfl) fun s bytes header t hok hst hupcoming ht => ?_).2
  refine Session.handleFrame_holds dispatchLedger_lawful (fun _ _ hlog => hlog) ht
    (ht.shared.append nofun)
    (fun _ _ => ht.shared.append nofun) fun stream hstream hid => ?_
  obtain ⟨hend, hclosed⟩ := hok header _ hupcoming hid
  have hknown := ht.slots header.streamId hid hid
  obtain hslot | ⟨hnone, rfl⟩ := hstream
  · rw [hslot] at hknown
    refine Stream.receive_tracked ht.shared rfl hknown
      (ht.streams _ _ hslot).requestId hend fun hdone => ?_
    obtain ⟨window, hbefore⟩ := Session.exists_of_shape (hst.shape _) hslot
    exact hclosed _ hbefore hdone
  · rw [hnone] at hknown
    exact Stream.receive_tracked ht.shared rfl ⟨⟨nofun, nofun⟩, nofun, fun _ => hknown⟩ rfl hend
      nofun

theorem dispatchedOnce_of_proper_request : ∃ t, (server keepingHost).Run ProperStep {} t ∧
    dispatches 1 t.conn.log = 1 ∧ DispatchedOnce t.conn.log := by
  have hupcoming : (Session.pushBack smallRequest {}).upcoming =
      some (⟨1, .headers, 5, 1⟩, [0x82]) := by decide +kernel
  obtain ⟨t, hnext, honce⟩ : ∃ t, (server keepingHost).next (.read smallRequest) {} = some t ∧
      dispatches 1 t.conn.log = 1 := System.exists_of_any (by decide +kernel)
  have hrun : (server keepingHost).Run ProperStep {} t := by
    refine .tail .refl (fun header rest h _ => ?_) hnext
    rw [hupcoming] at h
    cases h
    exact ⟨fun _ => .inr ⟨rfl, rfl⟩, nofun⟩
  exact ⟨t, hrun, honce, dispatchedOnce_of_proper hrun⟩

/-- A request, and then a `WINDOW_UPDATE` for its stream. -/
def requestAndUpdate : List Label :=
  [.read smallRequest,
    .read (Frame.write { type := .windowUpdate, streamId := 1, payload := [0, 0, 0, 1] })]

/-- A request whose header block is going to be continued. -/
def unfinishedRequest : List Label :=
  [.read
    (Frame.write { type := .headers, flags := Flags.endStream, streamId := 1, payload := [0x82] })]

/-- A request is dispatched once more for a `WINDOW_UPDATE`, and one whose header block has not
ended is dispatched. -/
theorem dispatched_again_and_early :
    (∃ t, (server keepingHost).Run System.Any {} t ∧ dispatches 1 t.conn.log = 2 ∧
      ¬DispatchedOnce t.conn.log) ∧
    ∃ t, (server keepingHost).Run System.Any {} t ∧ dispatches 1 t.conn.log = 1 ∧
      blockOpen 1 t.conn.log = some true ∧ ¬DispatchedOnce t.conn.log := by
  constructor
  · obtain ⟨t, hrun, htwice⟩ : ∃ t, (server keepingHost).Run System.Any {} t ∧
        dispatches 1 t.conn.log = 2 :=
          (server keepingHost).exists_run requestAndUpdate (by decide +kernel)
    refine ⟨t, hrun, htwice, fun h => ?_⟩
    have honce := h.once 1
    rw [htwice] at honce
    exact absurd honce (by decide)
  · obtain ⟨t, hrun, hlog⟩ : ∃ t, (server keepingHost).Run System.Any {} t ∧
        t.conn.log = [.received ⟨1, .headers, 1, 1⟩ [0x82], .dispatched { streamId := 1 }
          (Response.setStatus "404" { streamId := 1 })] :=
      (server keepingHost).exists_run unfinishedRequest (by decide +kernel)
    refine ⟨t, hrun, ?_, ?_, fun h => ?_⟩
    · rw [hlog]
      rfl
    · rw [hlog]
      rfl
    · have hended := (h.complete [_] _ _ [] hlog).1
      exact absurd hended (by decide)

end Congelado.Http2
