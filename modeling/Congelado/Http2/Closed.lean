import Congelado.Http2.Escape

/-!
# Streams that are gone

A stream that is closed leaves an empty slot in `m_streams`, and a connection that is closed drops
the slots above the last stream. A step `Uses` such a slot if it dereferences an empty one, or asks
the map for a number that it does not have.

Three places do not look first. A handler that has kept the function for its response calls it when
the stream may be gone. The windows of all slots are raised after a change of the settings, also
those of the empty ones. And a handler that throws after it has sent its response gets the status of
the response set for it, on a stream that was closed by the sending. `Considerate` excludes the
first two by what is read while functions are kept, and `Host.Decisive` the third.

The empty slots also keep a session from being idle (`isIdle_exact_iff`), and a `GOAWAY` of the peer
makes every stream one above the last (`goaway_spares_iff`).
-/

namespace Congelado.Http2

open Codec Attempt Action Transition

/-- What the use of a slot without a stream ends with. -/
def Thrown.OfSlot : Thrown → Prop
  | .outOfRange => True
  | .fault .nullStream => True
  | _ => False

/-- No handler throws after it has sent its response. -/
def Host.Decisive (host : Host) : Prop :=
  ∀ request response, (host.dispatch request response).reply ≠ .sendsAndThrows

namespace Session

/-- There is a stream in the slot. -/
def Live (id : ℕ) (s : Session) : Prop := ∃ stream, s.slot id = some (some stream)

/-- A response that comes later, in the state in which the function is called. -/
def answerLate (host : Host) (id : ℕ) (response : Response) (s : Session) :
    Outcome Thrown Session :=
  andThen (setResponse id response) (sendResponse host id)
    { s with pending := s.pending.erase id }

/-- The step uses a slot that has no stream. -/
def Uses (host : Host) (s : Session) : Label → Prop
  | .read bytes =>
    s.status = .running ∧ ∃ e, (receive host (s.pushBack bytes)).thrown = some e ∧ e.OfSlot
  | .reply id response =>
    id ∈ s.pending ∧ ∃ e, (s.answerLate host id response).thrown = some e ∧ e.OfSlot

/-- The streams whose functions are kept are there, and a function is kept once. -/
structure Attends (s : Session) : Prop where
  live : ∀ id ∈ s.pending, s.Live id
  nodup : s.pending.Nodup

end Session

/-- What is read while functions are kept: no frame on a stream whose function is kept, and nothing
that closes the connection. The windows are raised only if no stream was closed before and no
function is kept. -/
def Considerate (host : Host) (s : Session) : Label → Prop
  | .read bytes =>
    (∀ frame ∈ (s.pushBack bytes).upcoming, frame.1.streamId ∉ s.pending) ∧
    ((s.onRead host bytes).status = .closed → s.pending = []) ∧
    ((s.pushBack bytes).due ≠ 0 → s.pending = [] ∧ ¬Closing s.conn.log)
  | .reply _ _ => True

theorem Thrown.OfFrame.spares {id : ℕ} {e : Thrown} (h : e.OfFrame id) : ¬e.OfSlot := by
  cases e with
  | fault fault => cases fault <;> first | exact not_false | exact h.elim
  | outOfRange => exact h.elim
  | connectionError | streamError | codec => exact not_false

/-! ### The session -/

namespace Session

variable {s t : Session} {host : Host} {header : FrameHeader} {id : ℕ}

/-- The stream is there, so the action is taken on it, and the streams that are there stay. -/
theorem onStream_spares {stream : Stream} (hslot : s.slot id = some (some stream))
    {f : Action Thrown Context} {key : ℕ}
    (hf : (f ⟨s.conn, stream⟩).Ends (fun _ => True) fun e _ => e.OfFrame key) :
    (onStream id f s).Ends (fun t => ∀ other, s.Live other → t.Live other) fun e _ =>
      e.OfFrame key := by
  rw [onStream_ends hslot]
  refine hf.mono (fun c _ other hother => ?_) fun _ _ he => he
  by_cases hid : other = id
  · subst hid
    exact ⟨c.stream, slot_setSlot_self _⟩
  · obtain ⟨stream', hslot'⟩ := hother
    exact ⟨stream', (slot_setSlot_of_ne hid _).trans hslot'⟩

theorem each_raise_spares {delta : ℕ} {entries : List (ℕ × Option Stream)}
    (hlive : ∀ entry ∈ entries, s.Live entry.1) :
    (each (fun entry => onStream entry.1 (Stream.updateSendWindow delta)) entries s).Ends
      (fun _ => True) fun e _ => ¬e.OfSlot := by
  induction entries generalizing s with
  | nil => trivial
  | cons entry entries ih =>
    obtain ⟨stream, hslot⟩ := hlive entry (.head _)
    rw [each, andThen_ends]
    refine (onStream_spares hslot (Stream.updateSendWindow_throws delta _)).mono
      (fun t ht => ih fun other hother => ?_) fun _ _ he => he.spares
    exact ht other.1 (hlive other (.tail _ hother))

theorem raiseWindows_spares (hlive : ∀ id, s.slot id ≠ some none) :
    (raiseWindows s).Ends (fun _ => True) fun e _ => ¬e.OfSlot := by
  unfold raiseWindows
  split_ifs with hdelta
  · simp only [andThen_ends, onConnection, zoom_ends, modify_ends]
    refine each_raise_spares fun entry hentry => ?_
    obtain ⟨slot, hslot⟩ := OrderedMap.find_eq_some_of_mem_keys (List.mem_map_of_mem hentry)
    cases slot with
    | none => exact absurd hslot (hlive entry.1)
    | some stream => exact ⟨stream, hslot⟩
  · trivial

/-- Only a raise of the windows names a stream before the payload is there. -/
theorem receiveHeader_spares (hsafe : s.safeHeader = none) (hsize : headerSize ≤ s.conn.reader.size)
    (h : s.due ≠ 0 → s.pending = [] ∧ ∀ id, s.slot id ≠ some none) :
    (receiveHeader s).Ends (fun _ => True) fun e _ =>
      ¬e.OfSlot ∧ ∀ id code, e = .streamError id code → id ∉ s.pending := by
  refine receiveHeader_ends.2 ⟨fun e he => ?_, fun header _ => ?_⟩
  · unfold nextHeader at he
    cases hread : s.conn.reader.read headerSize with
    | error e' =>
      rw [hread] at he
      obtain rfl : e' = e := Except.error.inj he
      rw [(Reader.of_read_error hread).2]
      exact ⟨not_false, nofun⟩
    | ok bytes =>
      rw [hread] at he
      change readFrameHeader _ bytes = _ at he
      unfold readFrameHeader at he
      split_ifs at he
      · cases he
        exact ⟨not_false, nofun⟩
      · simp only at he
        split_ifs at he
        cases he
        exact ⟨not_false, nofun⟩
  · split_ifs
    · exact ⟨not_false, nofun⟩
    · unfold settleSettings
      split_ifs with hstate
      · simp only [andThen_ends, onConnection, zoom_ends, modify_ends]
        by_cases hdue : s.due = 0
        · -- there is nothing to raise, or no stream
          have hnone : (raiseWindows (s.consumed headerSize)).thrown = none := by
            unfold raiseWindows
            split_ifs with hdelta
            · have hne : s.conn.remoteSettings.deltaWindowOnSettings ≠ 0 := hdelta.ne'
              have hstreams : s.streams = [] := by
                rw [due, if_pos ⟨hsafe, hsize, hstate, hdelta⟩] at hdue
                simpa [hne] using hdue
              simp only [consumed, hstreams]
              rfl
            · rfl
          exact Outcome.ends_iff.2 ⟨fun _ => ⟨⟩, fun e he => absurd (hnone.symm.trans he) nofun⟩
        · obtain ⟨hpending, hlive⟩ := h hdue
          refine (raiseWindows_spares (s := s.consumed headerSize) hlive).mono (fun _ h => h)
            fun e _ he => ⟨he, fun _ _ _ => ?_⟩
          simp [hpending]
      · trivial

/-! ### Responses -/

section

variable {key : ℕ} (hlive : s.Live id)

include hlive

/-- If the sending throws then the stream is still there. -/
theorem sendResponse_spares :
    (sendResponse host id s).Ends (fun _ => True) fun e t => e.OfFrame id ∧ t.Live id := by
  obtain ⟨stream, hslot⟩ := hlive
  unfold sendResponse
  rw [hslot]
  simp only
  split
  · exact ⟨trivial, stream, hslot⟩
  · exact ⟨trivial, stream, hslot⟩
  · unfold markStreamClosed
    split_ifs
    · exact ⟨trivial, stream, hslot⟩
    · split
      · trivial
      · exact ⟨trivial, stream, hslot⟩

theorem failResponse_spares :
    (failResponse host id s).Ends (fun _ => True) fun e _ => e.OfFrame id := by
  obtain ⟨stream, hslot⟩ := hlive
  rw [failResponse, andThen_ends]
  refine (onStream_spares hslot ?_).mono (fun t ht => ?_) fun _ _ he => he
  · trivial
  · exact (sendResponse_spares (ht id ⟨stream, hslot⟩)).mono (fun _ h => h) fun _ _ he => he.1

theorem trySend_spares :
    (trySend host id s).Ends (fun _ => True) fun e _ => e.OfFrame id := by
  rw [trySend, rescue_ends]
  refine (sendResponse_spares hlive).mono (fun _ h => h) ?_
  rintro e t ⟨he, ht⟩
  cases e with
  | fault fault => exact he
  | connectionError | streamError | codec | outOfRange => exact failResponse_spares ht

end

/-- Either the function is kept and nothing is thrown, or none is kept. -/
theorem response_spares (hhost : host.Decisive) {stream : Stream}
    (hslot : s.slot id = some (some stream)) : (response host id s).Ends
      (fun t => t.pending = s.pending ∨ t.pending = id :: s.pending ∧ t.Live id)
      fun e t => e.OfFrame id ∧ t.pending = s.pending := by
  rw [response_eq host hslot]
  have hlive : (s.dispatching host id stream).Live id := ⟨_, slot_dispatching_self host stream⟩
  have hreply := hhost stream.request (stream.response.setStatus "404")
  cases h : (host.dispatch stream.request (stream.response.setStatus "404")).reply with
  | keeps => exact .inr ⟨rfl, hlive⟩
  | sends =>
    exact ((trySend_spares hlive).and (.of_state (trySend_sends host id _).pending)).mono
      (fun t ht => .inl ht.2) fun _ _ h => h
  | throws =>
    exact ((failResponse_spares hlive).and (.of_state (failResponse_sends host id _).pending)).mono
      (fun t ht => .inl ht.2) fun _ _ h => h
  | sendsAndThrows => exact absurd h hreply

theorem respondIfDone_spares (hhost : host.Decisive) : (respondIfDone host id s).Ends
      (fun t => t.pending = s.pending ∨ t.pending = id :: s.pending ∧ t.Live id)
      fun e t => e.OfFrame id ∧ t.pending = s.pending := by
  unfold respondIfDone
  split
  · rename_i stream hslot
    split_ifs
    · exact response_spares hhost hslot
    · exact .inl rfl
  · exact .inl rfl

/-! ### Steps -/

/-- A frame throws for its own stream, and keeps a function for that stream only. -/
theorem handleFrame_spares (hhost : host.Decisive) (hformed : s.Formed) :
    (handleFrame host header s).Ends
      (fun t => t.pending = s.pending ∨
        t.pending = header.streamId :: s.pending ∧ t.Live header.streamId)
      fun e t => e.OfFrame header.streamId ∧ t.pending = s.pending := by
  unfold handleFrame
  split_ifs with hid
  · rw [onConnection, zoom_ends, hid]
    exact (Connection.receive_throws host header s.conn).mono (fun _ _ => .inl rfl)
      fun _ _ he => ⟨he, rfl⟩
  · simp only [andThen_ends]
    refine ((getOrCreateStream_spec header.streamId s).and
      (getOrCreateStream_formed hformed hid)).mono ?_ ?_
    · rintro t ⟨⟨hsame, hslot⟩, ht⟩
      have hpending : t.pending = s.pending := by
        obtain rfl | ⟨-, rfl⟩ := hsame <;> rfl
      have hthrows := Stream.receive_throws host header ⟨t.conn, s.target header.streamId⟩
      rw [(ht.streams _ _ hslot).id] at hthrows
      have hkept : (onStream header.streamId (Stream.receive host header) t).Ends
          (fun u => u.pending = t.pending) fun _ u => u.pending = t.pending := by
        refine .of_state ?_
        rw [onStream, hslot]
        rfl
      refine ((onStream_spares hslot hthrows).and hkept).mono ?_ ?_
      · rintro u ⟨-, hu⟩
        rw [← hpending, ← hu]
        exact respondIfDone_spares hhost
      · rintro e u ⟨he, hu⟩
        exact ⟨he, hu.trans hpending⟩
    · rintro e t ⟨⟨rfl, code, lastStreamId, rfl⟩, -⟩
      exact ⟨trivial, rfl⟩

/-- The handlers of `receive` look for the slot that they empty. -/
theorem handleThrown_spares {e : Thrown} (he : ¬e.OfSlot) :
    (handleThrown e s).Ends (fun _ => True) fun e _ => ¬e.OfSlot := by
  cases e with
  | connectionError code lastStreamId => trivial
  | streamError streamId code =>
    simp only [handleThrown, andThen_ends, onConnection, zoom_ends, Connection.send, modify_ends,
      markStreamClosed]
    split_ifs
    · exact not_false
    · split
      · trivial
      · exact not_false
  | codec | outOfRange | fault => exact he

theorem Attends.headed (h : s.Attends) (hst : Headed s t) : t.Attends := by
  refine ⟨fun id hid => ?_, hst.pending ▸ h.nodup⟩
  rw [hst.pending] at hid
  obtain ⟨stream, hslot⟩ := h.live id hid
  obtain ⟨window, hslot'⟩ := exists_of_shape (hst.shape id).symm hslot
  exact ⟨_, hslot'⟩

/-- A stream without a function may change, and a function may be kept for it. -/
theorem Attends.step (h : s.Attends) (hid : id ∉ s.pending)
    (hothers : ∀ other ≠ id, t.slot other = s.slot other)
    (hpending : t.pending = s.pending ∨ t.pending = id :: s.pending ∧ t.Live id) : t.Attends := by
  have hlive : ∀ other ∈ s.pending, t.Live other := by
    intro other hother
    obtain ⟨stream, hslot⟩ := h.live other hother
    exact ⟨stream, (hothers other fun he => hid (he ▸ hother)).trans hslot⟩
  obtain hsame | ⟨hcons, hkept⟩ := hpending
  · exact ⟨hsame ▸ hlive, hsame ▸ h.nodup⟩
  · refine ⟨fun other hother => ?_, hcons ▸ List.nodup_cons.2 ⟨hid, h.nodup⟩⟩
    rw [hcons] at hother
    obtain rfl | hother := List.mem_cons.1 hother
    · exact hkept
    · exact hlive other hother

section

variable (hhost : host.Decisive) (hformed : s.Formed)
    (hdue : s.due ≠ 0 → s.pending = [] ∧ ∀ id, s.slot id ≠ some none)

include hhost hformed hdue

theorem receive_spares : (receive host s).Ends (fun _ => True) fun e _ => ¬e.OfSlot := by
  rw [receive, rescue_ends]
  refine (receiveFrame_ends (P := fun _ => True) (E := fun e _ => ¬e.OfSlot) (fun _ => ⟨⟩)
    (fun hsafe hsize => (receiveHeader_spares hsafe hsize hdue).mono (fun _ h => h)
      fun _ _ he => he.1) (fun _ _ _ _ => ⟨⟩) fun header t _ ht _ _ => ?_).mono (fun _ h => h)
    fun e t he => handleThrown_spares he
  exact (handleFrame_spares hhost ((hformed.headed ht).takeHeader header)).mono (fun _ _ => ⟨⟩)
    fun _ _ he => he.1.spares

variable (hattends : s.Attends)
    (hframe : ∀ frame ∈ s.upcoming, frame.1.streamId ∉ s.pending)

include hattends hframe

theorem receiveFrame_attends : (receiveFrame host s).Ends Attends fun e t =>
    t.Attends ∧ t.pending = s.pending ∧ ∀ id code, e = .streamError id code → id ≠ 0 →
      id ∉ t.pending := by
  refine receiveFrame_ends (P := fun _ => True) (fun _ => ⟨⟩) (fun hsafe hsize => ?_)
    (fun t ht _ _ => hattends.headed ht) fun header t _ ht hupcoming _ => ?_
  · refine (receiveHeader_spec.and (receiveHeader_spares hsafe hsize hdue)).mono (fun _ _ => ⟨⟩) ?_
    rintro e t ⟨ht, -, hnames⟩
    exact ⟨hattends.headed ht, ht.pending, fun id code he _ => ht.pending ▸ hnames id code he⟩
  · have hkey : header.streamId ∉ (t.takeHeader header).pending :=
      ht.pending ▸ hframe _ hupcoming
    have htaken : (t.takeHeader header).Attends :=
      ⟨(hattends.headed ht).live, (hattends.headed ht).nodup⟩
    have hframed := handleFrame_framed host header (t.takeHeader header)
    refine ((handleFrame_spares hhost ((hformed.headed ht).takeHeader header)).and
      (.of_state hframed)).mono ?_ ?_
    · rintro u ⟨hpending, hu⟩
      exact htaken.step hkey hu.others hpending
    · rintro e u ⟨⟨he, hpending⟩, hu⟩
      refine ⟨htaken.step hkey hu.others (.inl hpending), hpending.trans ht.pending, ?_⟩
      rintro id code rfl hid
      rw [hpending, he.resolve_right hid]
      exact hkey

theorem receive_attends
    (hclosed : (conclusion (receive host s)).status = .closed → s.pending = []) :
    (receive host s).state.Attends := by
  obtain ⟨hdone, hthrown⟩ :=
    Outcome.ends_iff.1 (receiveFrame_attends hhost hformed hdue hattends hframe)
  unfold receive rescue at hclosed ⊢
  split at hclosed
  · rename_i hnone
    exact hdone hnone
  · rename_i e he
    obtain ⟨hend, hpending, hnames⟩ := hthrown e he
    cases e with
    | connectionError code lastStreamId =>
      -- no function is kept, so that none of the slots that are dropped matters
      have hempty : (receiveFrame host s).state.pending = [] := hpending.trans (hclosed rfl)
      refine ⟨fun id hid => ?_, hend.nodup⟩
      cases hempty ▸ (show id ∈ (receiveFrame host s).state.pending from hid)
    | streamError id code =>
      change (markStreamClosed id _).state.Attends
      unfold markStreamClosed
      split_ifs with hzero
      · exact ⟨hend.live, hend.nodup⟩
      · split
        · exact hend.step (hnames id code rfl hzero)
            (fun other hother => slot_setSlot_of_ne hother _)
            (.inl rfl)
        · exact ⟨hend.live, hend.nodup⟩
    | codec | outOfRange | fault => exact hend

end

end Session

open Congelado.Http2.Session

variable {host : Host} {s : Session} {label : Label}

/-- The windows are raised when no slot is empty. -/
theorem Considerate.due {bytes : List UInt8} (h : Considerate host s (.read bytes))
    (hformed : s.Formed) (hdue : (s.pushBack bytes).due ≠ 0) :
    s.pending = [] ∧ ∀ id, s.slot id ≠ some none := by
  obtain ⟨hpending, hclosing⟩ := h.2.2 hdue
  exact ⟨hpending, fun id hslot => hclosing (hformed.tallied.1 ⟨id, hslot⟩)⟩

/-- The streams whose functions are kept stay. -/
theorem attends_of_run (hhost : host.Decisive) (h : (server host).Run (Considerate host) {} s) :
    s.Attends := by
  induction h with
  | refl => exact ⟨nofun, .nil⟩
  | @tail s t label hrun hok hnext ih =>
    cases label with
    | read bytes =>
      simp only [server, Option.ite_none_right_eq_some, Option.some.injEq] at hnext
      obtain ⟨⟨hrunning, -⟩, rfl⟩ := hnext
      have hformed := formed_of_run hrun hrunning
      have hclosed := hok.2.1
      unfold onRead at hclosed ⊢
      split_ifs at hclosed ⊢
      · exact ih.headed (headed_pushBack bytes)
      · have hattends := receive_attends hhost (hformed.headed (headed_pushBack bytes))
          (hok.due hformed) (ih.headed (headed_pushBack bytes)) hok.1 hclosed
        unfold conclusion
        split
        · exact hattends
        · exact ⟨hattends.live, hattends.nodup⟩
    | reply id response =>
      -- the function is called once, and the streams of the others are not touched
      have hkept : { s with pending := s.pending.erase id }.Attends :=
        ⟨fun other hother => ih.live other (List.mem_of_mem_erase hother), ih.nodup.erase id⟩
      obtain ⟨pending, rfl, rfl | ⟨stream, -, hsends⟩⟩ := lateReply_sends hnext
      · exact hkept
      · refine hkept.step ih.nodup.not_mem_erase (fun other hother => ?_) (.inl hsends.pending)
        exact (hsends.others other hother).trans (slot_setSlot_of_ne hother _)

instance : DecidablePred Event.Closes
  | .sent _ => inferInstanceAs (Decidable (_ ∨ _))
  | .received _ _ | .fed _ _ | .dispatched _ _ => .isFalse not_false

instance (log : List Event) : Decidable (Closing log) :=
  inferInstanceAs (Decidable (∃ event ∈ log, event.Closes))

instance (s : Session) (label : Label) : Decidable (Considerate host s label) :=
  match label with
  | .read _ => inferInstanceAs (Decidable (_ ∧ _ ∧ _))
  | .reply _ _ => .isTrue ⟨⟩

/-- The head of a request whose body is to come. -/
def headOn (id : ℕ) : Label := .read (Frame.write
  { type := .headers, flags := Flags.endHeaders, streamId := id, payload := [0x82] })

/-- The peer resets the stream of a request that the handler has kept. -/
def resetRequest : List Label :=
  [.read smallRequest, .read (Frame.write (.rstStream 1 .cancel))]

namespace Session

/-- `Session::is_idle`. -/
def isIdle (s : Session) : Bool := s.streams.isEmpty

/-- A stream of the session has not been closed. -/
def HasLive (s : Session) : Prop := ∃ id, s.Live id

theorem HasLive.not_isIdle (h : s.HasLive) : ¬s.isIdle = true := by
  obtain ⟨id, stream, hslot⟩ := h
  intro hidle
  rw [slot, List.isEmpty_iff.1 hidle] at hslot
  cases hslot

/-- Without a live stream, a session is idle if it has no slots. -/
theorem isIdle_of_not_hasLive (h : ¬s.HasLive) :
    s.isIdle = true ↔ ¬∃ id, s.slot id = some none := by
  rw [isIdle, List.isEmpty_iff]
  refine ⟨fun hempty => ?_, fun hnone => ?_⟩
  · rintro ⟨id, hslot⟩
    rw [slot, hempty] at hslot
    cases hslot
  · -- the first slot would be live or empty
    cases hstreams : s.streams with
    | nil => rfl
    | cons entry rest =>
      have hfirst : s.slot entry.1 = some entry.2 := by
        rw [slot, hstreams]
        exact if_pos rfl
      cases hentry : entry.2 with
      | none => exact absurd ⟨entry.1, hentry ▸ hfirst⟩ hnone
      | some stream => exact absurd ⟨entry.1, stream, hentry ▸ hfirst⟩ h

end Session

/-- The last stream that is remembered is 0 from now on. -/
def Connection.Barred (c : Connection) : Prop := c.remoteSettings.lastStreamId = 0

/-- No frame of the connection names another stream than its own. -/
theorem Connection.receive_barred (host : Host) {header : FrameHeader} (hid : header.streamId = 0)
    {c : Connection} (h : c.Barred) : (receive host header c).Ends Barred fun _ => Barred := by
  cases htype : header.type with
  | windowUpdate =>
    simp only [receive, htype, andThen_ends, receiveWindowUpdate, updateSendWindow, consume,
      modify_ends, reading_ends]
    exact ⟨fun _ _ => h, fun _ _ => ⟨fun _ _ => h, fun _ _ => h⟩⟩
  | ping =>
    simp only [receive, htype, reading_ends]
    refine ⟨fun _ _ => h, fun payload _ => ?_⟩
    split_ifs <;> exact h
  | settings =>
    simp only [receive, htype]
    split_ifs
    · exact h
    · simp only [andThen_ends, consume, send, modify_ends]
      unfold handleSettings
      split_ifs
      · exact h
      · refine reading_ends.2 ⟨fun _ _ => h, fun settings _ => ?_⟩
        simp only [andThen_ends, modify_ends, settleWindow]
        split_ifs
        · exact h
        · simp only [andThen_ends, updateSendWindow, reading_ends, modify_ends]
          exact ⟨fun _ _ => h, fun _ _ => h⟩
  | goaway =>
    simp only [receive, htype]
    exact hid
  | unknown code =>
    simp only [receive, htype, andThen_ends, skipUnknown, consume, modify_ends]
    split_ifs <;> exact h
  | data | headers | priority | pushPromise | continuation | rstStream =>
    simp only [receive, htype]
    exact h

namespace Session

variable {t : Session} {header : FrameHeader}

theorem handleFrame_barred (h : s.conn.Barred) : (handleFrame host header s).Ends
    (fun t => t.conn.Barred) fun _ t => t.conn.Barred := by
  unfold handleFrame
  split_ifs with hid
  · rw [onConnection, zoom_ends]
    exact Connection.receive_barred host hid h
  · simp only [andThen_ends]
    refine (getOrCreateStream_spec header.streamId s).mono ?_ ?_
    · rintro t ⟨hsame, hslot⟩
      have hconn : t.conn = s.conn := by
        obtain rfl | ⟨-, rfl⟩ := hsame <;> rfl
      have htouched := Stream.receive_touches host header ⟨t.conn, s.target header.streamId⟩
      have hreceived : (Stream.receive host header ⟨t.conn, s.target header.streamId⟩).Ends
          (fun c => c.conn.Barred) fun _ c => c.conn.Barred := by
        refine .of_state ?_
        rw [Connection.Barred, htouched.remoteSettings, hconn]
        exact h
      rw [onStream_ends hslot]
      refine hreceived.mono (fun c hc => .of_state ?_) fun _ c hc => hc
      obtain ⟨log, table, hlog⟩ := respondIfDone_conn host header.streamId (t.put header.streamId c)
      rw [hlog]
      exact hc
    · rintro e t ⟨rfl, -⟩
      exact h

theorem receiveFrame_barred (h : s.conn.Barred) : (receiveFrame host s).Ends
    (fun t => t.conn.Barred) fun _ t => t.conn.Barred := by
  refine receiveFrame_ends (P := fun _ => True) (fun _ => ⟨⟩) (fun _ _ => ?_)
    (fun t ht _ _ => ht.lastStreamId.trans h) fun header t _ ht _ _ => ?_
  · exact receiveHeader_spec.mono (fun _ _ => ⟨⟩) fun _ _ ht => ht.lastStreamId.trans h
  · exact handleFrame_barred (s := t.takeHeader header) (ht.lastStreamId.trans h)

theorem barred_of_run (h : (server host).Run System.Any s t) (hs : s.conn.Barred)
    (hrunning : t.status = .running) : t.conn.Barred := by
  refine h.invariant (I := fun t => t.status = .running → t.conn.Barred) (fun _ => hs) ?_ hrunning
  intro s l u ih _ hnext
  cases l with
  | read bytes =>
    simp only [server, Option.ite_none_right_eq_some, Option.some.injEq] at hnext
    obtain ⟨⟨hrunning, hbytes⟩, rfl⟩ := hnext
    exact onRead_running (J := fun t => t.conn.Barred) hbytes
      ((receiveFrame_barred (s := s.pushBack bytes) (ih hrunning)).mono (fun _ h => h)
        fun _ _ ht _ _ _ _ _ => ht)
  | reply id response =>
    obtain ⟨pending, -, rfl | ⟨stream, -, hsends⟩⟩ := lateReply_sends hnext
    · exact ih
    · intro hrunning
      rw [hsends.conn]
      exact ih (hsends.status.symm.trans hrunning)

/-- A connection that is running, between two frames. -/
structure Between (s : Session) : Prop where
  running : s.status = .running
  safeHeader : s.safeHeader = none
  reader : s.conn.reader = {}

/-- The frame at hand is a `GOAWAY` that names `n` as the last stream, and it is taken. -/
structure TakesGoaway (host : Host) (n : ℕ) (bytes : List UInt8) (s : Session) : Prop where
  frame : ∃ header payload, (s.pushBack bytes).upcoming = some (header, payload) ∧
    header.type = .goaway ∧ header.streamId = 0 ∧ 8 ≤ header.length ∧
    n = readBigEndian (payload.take 4) &&& 0x7FFFFFFF
  taken : (receiveFrame host (s.pushBack bytes)).thrown = none

/-- The frame at hand is one on a stream up to `n` that is there, and the connection takes it and
goes on. -/
structure Legal (host : Host) (n : ℕ) (bytes : List UInt8) (s : Session) : Prop where
  frame : ∃ header payload, (s.pushBack bytes).upcoming = some (header, payload) ∧
    header.streamId ≠ 0 ∧ header.streamId ≤ n ∧ s.Live header.streamId
  running : (s.onRead host bytes).status = .running

/-- A read is processed in the same way by two sessions. -/
def Alike (host : Host) (bytes : List UInt8) (s t : Session) : Prop :=
  (t.onRead host bytes).status = (s.onRead host bytes).status ∧
    ∃ events, (s.onRead host bytes).conn.log = s.conn.log ++ events ∧
      (t.onRead host bytes).conn.log = t.conn.log ++ events

variable {bytes : List UInt8}

/-- The last stream that is remembered is the one that the `GOAWAY` itself came on. -/
theorem TakesGoaway.barred {n : ℕ} (h : s.TakesGoaway host n bytes) (hbytes : bytes ≠ []) :
    (s.onRead host bytes).conn.Barred := by
  obtain ⟨header, payload, hupcoming, htype, hid, -⟩ := h.frame
  have hends : (receiveFrame host (s.pushBack bytes)).Ends (fun t => t.conn.Barred)
      fun _ _ => True := by
    refine receiveFrame_ends (P := fun _ => True) (fun _ => ⟨⟩) (fun _ _ => ?_)
      (fun _ _ hnone _ => ?_) fun header' t _ _ hsome _ => ?_
    · exact Outcome.ends_iff.2 ⟨fun _ => ⟨⟩, fun _ _ => ⟨⟩⟩
    · cases hupcoming.symm.trans hnone
    · cases hupcoming.symm.trans hsome
      rw [handleFrame, if_pos hid, onConnection, zoom_ends, Connection.receive, htype]
      exact hid
  have hlength := List.length_pos_of_ne_nil hbytes
  have hsize : (s.pushBack bytes).conn.reader.size ≠ 0 := by
    change s.conn.reader.size + bytes.length ≠ 0
    omega
  rw [onRead, if_neg hsize, receive, rescue, h.taken, conclusion]
  simp only [h.taken]
  exact (Outcome.ends_iff.1 hends).1 h.taken

/-- No frame on a stream gets through. -/
theorem closed_of_barred (hu : s.Between) (h : s.conn.Barred)
    {header : FrameHeader} {payload : List UInt8}
    (hnext : (s.pushBack bytes).upcoming = some (header, payload)) (hid : header.streamId ≠ 0) :
    (s.onRead host bytes).status = .closed := by
  obtain ⟨hsize, hread, -, -⟩ := of_upcoming (s := s.pushBack bytes) hu.safeHeader hnext
  have hends : (receiveFrame host (s.pushBack bytes)).Ends (fun _ => False) fun e _ =>
      e = .connectionError .protocolError 0 := by
    refine receiveFrame_ends (P := fun _ => False) (fun hkept => hkept hu.safeHeader)
      (fun _ _ => ?_)
      (fun _ _ hnone _ => ?_) fun _ _ hfalse => hfalse.elim
    · have hnever : ∀ e, (s.pushBack bytes).nextHeader ≠ .error e := by simp [hread]
      refine receiveHeader_ends.2 ⟨fun e he => absurd he (hnever e), fun header' hheader' => ?_⟩
      obtain rfl : header = header' := Except.ok.inj (hread.symm.trans hheader')
      have hcheck : (s.pushBack bytes).conn.remoteSettings.lastStreamId < header.streamId :=
        h.trans_lt (pos_of_ne_zero hid)
      rw [if_pos hcheck]
      exact congrArg _ h
    · cases hnext.symm.trans hnone
  have hne : (s.pushBack bytes).conn.reader.size ≠ 0 := (lt_of_lt_of_le (by decide) hsize).ne'
  rw [onRead, if_neg hne, receive, rescue]
  split
  · rename_i hnone
    exact ((Outcome.ends_iff.1 hends).1 hnone).elim
  · rename_i e he
    obtain rfl := (Outcome.ends_iff.1 hends).2 e he
    rfl

/-- Two sessions between frames see the same frame in the same bytes. -/
theorem Between.upcoming_eq (hs : s.Between) (ht : t.Between) (hsFormed : s.Formed)
    (htFormed : t.Formed) : (t.pushBack bytes).upcoming = (s.pushBack bytes).upcoming := by
  have hreader : (t.pushBack bytes).conn.reader = (s.pushBack bytes).conn.reader := by
    rw [pushBack, pushBack, hs.reader, ht.reader]
  have hnext : (t.pushBack bytes).nextHeader = (s.pushBack bytes).nextHeader := by
    rw [nextHeader, nextHeader, hreader,
      show (t.pushBack bytes).conn.localSettings.maxFrameSize = minFrameSize
        from htFormed.maxFrameSize,
      show (s.pushBack bytes).conn.localSettings.maxFrameSize = minFrameSize
        from hsFormed.maxFrameSize]
  have hsafe : (s.pushBack bytes).safeHeader = none := hs.safeHeader
  have hsafe' : (t.pushBack bytes).safeHeader = none := ht.safeHeader
  simp only [upcoming, hsafe, hsafe', hnext, consumed, hreader]

end Session

/-- **Streams after a `GOAWAY`.** Let the same be read and answered with and without a `GOAWAY`.
Where both connections are between frames, the next frame is processed in the same way if it is
legal, on a stream up to the one that the `GOAWAY` names, only when it is not: with the `GOAWAY`, it
closes the connection. -/
theorem goaway_spares_iff {s t u : Session} {n : ℕ} {goaway bytes : List UInt8} {later : List Label}
    (hrun : (server host).Run System.Any {} s) (hgoaway : s.TakesGoaway host n goaway)
    (hwithout : (server host).play later s = some t)
    (hwith : (server host).play (.read goaway :: later) s = some u)
    (ht : t.Between) (hu : u.Between) :
    (t.Legal host n bytes → Alike host bytes t u) ↔ ¬t.Legal host n bytes := by
  refine ⟨fun halike hlegal => ?_, fun hnot hlegal => absurd hlegal hnot⟩
  obtain ⟨header, payload, hnext, hid, -⟩ := hlegal.frame
  have htRun : (server host).Run System.Any {} t := hrun.trans (.of_play hwithout)
  have huRun : (server host).Run System.Any {} u := hrun.trans (.of_play hwith)
  have hbarred : u.conn.Barred := by
    obtain ⟨v, hv, hplay⟩ := Option.bind_eq_some_iff.1 hwith
    simp only [server, Option.ite_none_right_eq_some, Option.some.injEq] at hv
    obtain ⟨⟨-, hbytes⟩, rfl⟩ := hv
    exact barred_of_run (.of_play hplay) (hgoaway.barred hbytes) hu.running
  have hsame : (u.pushBack bytes).upcoming = (t.pushBack bytes).upcoming :=
    ht.upcoming_eq hu (formed_of_run htRun ht.running) (formed_of_run huRun hu.running)
  have hclosed : (u.onRead host bytes).status = .closed :=
    closed_of_barred hu hbarred (hsame.trans hnext) hid
  cases hclosed.symm.trans ((halike hlegal).1.trans hlegal.running)

/-- A `GOAWAY` that names the last stream there can be. -/
def lastGoaway : Frame :=
  { type := .goaway, streamId := 0, payload := [127, 255, 255, 255, 0, 0, 0, 0] }

def ping : Label := .read (Frame.write { type := .ping, streamId := 0, payload := .replicate 8 0 })

/-- The end of the request on stream 1. -/
def requestBody : List UInt8 :=
  Frame.write { type := .data, flags := Flags.endStream, streamId := 1, payload := [1] }

instance (s : Session) : Decidable s.Between :=
  decidable_of_iff (s.status = .running ∧ s.safeHeader = none ∧ s.conn.reader = {})
    ⟨fun h => ⟨h.1, h.2.1, h.2.2⟩, fun h => ⟨h.1, h.2, h.3⟩⟩

/-- The body of a request, after a `GOAWAY` and a `PING`. -/
theorem goaway_spares_iff_body : ∃ s t u, (server keepingHost).Run System.Any {} s ∧
    (server keepingHost).play [ping] s = some t ∧
    (server keepingHost).play [.read lastGoaway.write, ping] s = some u ∧
    t.Legal keepingHost (2 ^ 31 - 1) requestBody ∧ ¬Alike keepingHost requestBody t u := by
  obtain ⟨s, hrun, hgoaway, htaken, hwithout, hwith⟩ : ∃ s,
      (server keepingHost).Run System.Any {} s ∧
      (s.pushBack lastGoaway.write).upcoming = some (⟨8, .goaway, 0, 0⟩, lastGoaway.payload) ∧
      (receiveFrame keepingHost (s.pushBack lastGoaway.write)).thrown = none ∧
      ((server keepingHost).play [ping] s).any (fun t => t.Between ∧
        (t.pushBack requestBody).upcoming = some (⟨1, .data, Flags.endStream, 1⟩, [1]) ∧
        t.slot 1 = some (some (t.target 1)) ∧
          (t.onRead keepingHost requestBody).status = .running) ∧
      ((server keepingHost).play [.read lastGoaway.write, ping] s).any (fun u => u.Between) :=
    (server keepingHost).exists_run [headOn 1] (by decide +kernel)
  obtain ⟨t, ht, hbetween, hupcoming, hslot, hrunning⟩ := System.exists_of_any hwithout
  obtain ⟨u, hu, hbetween'⟩ := System.exists_of_any hwith
  have hlegal : t.Legal keepingHost (2 ^ 31 - 1) requestBody :=
    ⟨⟨_, _, hupcoming, by decide, by decide, _, hslot⟩, hrunning⟩
  have htakes : s.TakesGoaway keepingHost (2 ^ 31 - 1) lastGoaway.write :=
    ⟨⟨_, _, hgoaway, rfl, rfl, by decide, by decide⟩, htaken⟩
  refine ⟨s, t, u, hrun, ht, hu, hlegal, fun halike => ?_⟩
  exact (goaway_spares_iff hrun htakes ht hu hbetween hbetween').1 (fun _ => halike) hlegal

/-- The body of a request is taken, but not if a `GOAWAY` has come before it. -/
theorem goaway_closes_request :
    ((server keepingHost).play [headOn 1, .read requestBody] {}).map Session.status =
        some .running ∧
      ((server keepingHost).play [headOn 1, .read lastGoaway.write, .read requestBody] {}).map
        Session.status = some .closed := by
  decide +kernel

end Congelado.Http2
