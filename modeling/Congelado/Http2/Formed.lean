import Congelado.Http2.Step

/-!
# Well-formed sessions

A stream is in the slot of its number, which is not the number of the connection, and so is the
request it collects. The size of frames that was announced is never changed, the window of a
connection is not negative, and the slots that are empty are those of the streams that were closed.
-/

namespace Congelado.Http2

open Codec Attempt Action Option

/-- What is found in the slot of a stream. -/
structure Stream.Formed (key : ℕ) (stream : Stream) : Prop where
  ne_zero : key ≠ 0
  id : stream.id = key
  requestId : stream.request.streamId = key

/-- The response of a stream may be any. -/
theorem Stream.Formed.withResponse {key : ℕ} {stream : Stream} (h : stream.Formed key)
    (response : Response) : Stream.Formed key { stream with response } :=
  ⟨h.ne_zero, h.id, h.requestId⟩

namespace Session

variable {stream : Stream}

structure Formed (s : Session) : Prop where
  streams : ∀ id stream, s.slot id = some (some stream) → stream.Formed id
  maxFrameSize : s.conn.localSettings.maxFrameSize = minFrameSize
  nonneg : 0 ≤ s.conn.sendWindow
  tallied : s.Tallied

theorem Formed.init : Formed {} := ⟨nofun, rfl, by decide, iff_of_false nofun nofun⟩

variable {s t : Session} {host : Host} {header : FrameHeader} {id : ℕ}

section

variable (h : s.Formed)

include h

theorem Formed.setSlot (hopen : s.slot id ≠ some none) (hstream : stream.Formed id) :
    (s.setSlot id (some stream)).Formed := by
  refine ⟨fun other stream' hother => ?_, h.maxFrameSize, h.nonneg, h.tallied.setSlot hopen stream⟩
  by_cases hne : other = id
  · subst hne
    rw [slot_setSlot_self] at hother
    cases hother
    exact hstream
  · rw [slot_setSlot_of_ne hne] at hother
    exact h.streams other stream' hother

theorem Formed.withConn {conn : Connection}
    (hsize : conn.localSettings.maxFrameSize = minFrameSize) (hnonneg : 0 ≤ conn.sendWindow)
    {events : List Event} (hlog : conn.log = s.conn.log ++ events) (hevents : ¬Closing events) :
    Formed { s with conn } := by
  refine ⟨h.streams, hsize, hnonneg, h.tallied.trans ?_⟩
  rw [hlog, closing_append, or_iff_left hevents]

theorem Formed.put {c : Context} (hopen : s.slot id ≠ some none)
    (hsize : c.conn.localSettings.maxFrameSize = minFrameSize) (hnonneg : 0 ≤ c.conn.sendWindow)
    {events : List Event} (hlog : c.conn.log = s.conn.log ++ events) (hevents : ¬Closing events)
    (hstream : c.stream.Formed id) : (s.put id c).Formed :=
  (h.withConn hsize hnonneg hlog hevents).setSlot hopen hstream

/-- A frame of the connection closes no stream. -/
theorem Formed.kept {conn : Connection} (hkept : Connection.Kept s.conn conn) :
    Formed { s with conn } := by
  obtain ⟨frames, hlog, hframes⟩ := hkept.log
  refine h.withConn (hkept.maxFrameSize.trans h.maxFrameSize) (hkept.nonneg h.nonneg) hlog ?_
  simp only [Closing, List.mem_map, not_exists, not_and]
  rintro _ ⟨frame, hframe, rfl⟩ (hreset | ⟨hdata, -⟩)
  · exact (hframes frame hframe).2 hreset
  · exact (hframes frame hframe).1 hdata

theorem Formed.emit (event : Event) (hevent : ¬event.Closes) :
    Formed { s with conn := s.conn.emit event } :=
  h.withConn h.maxFrameSize h.nonneg rfl (by simpa [Closing] using hevent)

theorem Formed.takeHeader (header : FrameHeader) : (s.takeHeader header).Formed := by
  have htaken := h.emit (.received header (s.conn.reader.viewed header.length)) not_false
  exact ⟨htaken.streams, htaken.maxFrameSize, htaken.nonneg, htaken.tallied⟩

theorem Formed.withPending (pending : List ℕ) : Formed { s with pending } :=
  ⟨h.streams, h.maxFrameSize, h.nonneg, h.tallied⟩

end

/-- A stream that is the same apart from its window. -/
theorem exists_of_shape (hshape : t.shape id = s.shape id)
    (h : t.slot id = some (some stream)) : ∃ window,
      s.slot id = some (some { stream with sendWindow := window }) := by
  rw [shape, h, shape] at hshape
  cases hslot : s.slot id with
  | none =>
    rw [hslot] at hshape
    cases hshape
  | some slot =>
    cases slot with
    | none =>
      rw [hslot] at hshape
      cases hshape
    | some before =>
      rw [hslot] at hshape
      simp only [map_some, Option.some.injEq] at hshape
      refine ⟨before.sendWindow, ?_⟩
      rw [Stream.mk.injEq] at hshape
      obtain ⟨hid, hstate, -, hrecv, hrequest, hresponse, hheader, htrailer, hexpecting, hdone,
        hprimary⟩ := hshape
      rw [hid, hstate, hrecv, hrequest, hresponse, hheader, htrailer, hexpecting, hdone, hprimary]

theorem shape_eq_none_iff : s.shape id = some none ↔ s.slot id = some none := by
  rw [shape, map_eq_some_iff]
  simp only [map_eq_none_iff, exists_eq_right]

/-- The part before the payload changes the stream of a frame in its window only. -/
theorem exists_target_of_headed (h : Headed s t) (id : ℕ) :
    ∃ window, s.target id = { t.target id with sendWindow := window } := by
  cases hslot : t.slot id with
  | none =>
    have hshape := h.shape id
    rw [shape, hslot, shape, map_none, eq_comm, map_eq_none_iff] at hshape
    rw [target, target, hshape, hslot, h.initialWindowSize]
    exact ⟨_, rfl⟩
  | some slot =>
    cases slot with
    | none =>
      have hshape := h.shape id
      rw [shape, hslot, shape, eq_comm, map_some, map_none, map_eq_some_iff] at hshape
      obtain ⟨slot, hslot', hnone⟩ := hshape
      rw [map_eq_none_iff.1 hnone] at hslot'
      rw [target, target, hslot', hslot, h.initialWindowSize]
      exact ⟨_, rfl⟩
    | some stream =>
      obtain ⟨window, hslot'⟩ := exists_of_shape (h.shape id) hslot
      rw [target, target, hslot, hslot']
      exact ⟨window, rfl⟩

section

variable (h : s.Formed)

include h

theorem Formed.headed (hst : Headed s t) : t.Formed := by
  refine ⟨fun id stream hslot => ?_, hst.localSettings ▸ h.maxFrameSize, hst.nonneg h.nonneg, ?_⟩
  · obtain ⟨window, hbefore⟩ := exists_of_shape (hst.shape id) hslot
    obtain ⟨hne, hid, hrequest⟩ := h.streams id _ hbefore
    exact ⟨hne, hid, hrequest⟩
  · rw [Tallied, hst.log]
    refine Iff.trans (exists_congr fun id => ?_) h.tallied
    rw [← shape_eq_none_iff, hst.shape id, shape_eq_none_iff]

theorem Formed.reset (id : ℕ) (code : Http2ErrorCode) : (s.reset id code).Formed := by
  refine ⟨fun other stream hslot => ?_, h.maxFrameSize, h.nonneg, tallied_of_closing ?_ id⟩
  · by_cases hother : other = id
    · subst hother
      cases (slot_setSlot_self none).symm.trans hslot
    · exact h.streams other stream ((slot_setSlot_of_ne hother none).symm.trans hslot)
  · exact closing_append.2 (.inr ⟨_, .head _, .inl rfl⟩)

theorem Formed.sends (hid : id ≠ 0) (hst : Sends id s t) : t.Formed := by
  refine ⟨fun other stream hslot => ?_, ?_, ?_, hst.tallied hid ?_ h.tallied⟩
  · obtain ⟨before, response, hbefore, rfl⟩ := hst.exists_stream hslot
    exact (h.streams other before hbefore).withResponse response
  · rw [hst.conn]
    exact h.maxFrameSize
  · rw [hst.conn]
    exact h.nonneg
  · rw [h.maxFrameSize]
    decide

theorem getOrCreateStream_formed (hid : id ≠ 0) :
    (getOrCreateStream id s).Ends Formed fun _ => Formed := by
  unfold getOrCreateStream
  split
  · exact h
  · exact h
  · split_ifs
    · exact h
    · exact h.setSlot (by simp [*]) ⟨hid, rfl, rfl⟩

end

theorem onStream_receive_formed (host : Host) (header : FrameHeader) (id : ℕ) (h : s.Formed) :
    (onStream id (Stream.receive host header) s).Ends Formed fun _ => Formed := by
  refine .of_state ?_
  unfold onStream
  split
  · exact h
  · exact h
  · rename_i stream hslot
    have htouched := Stream.receive_touches host header ⟨s.conn, stream⟩
    obtain ⟨hne, hid, hrequest⟩ := h.streams id stream hslot
    obtain ⟨blocks, hlog⟩ := htouched.log
    refine h.put (hslot ▸ nofun) ?_ (htouched.nonneg h.nonneg) hlog
      (by simp [Closing, Event.Closes])
      ⟨hne, htouched.id.trans hid, htouched.requestId.trans hrequest⟩
    rw [htouched.localSettings]
    exact h.maxFrameSize

theorem Formed.dispatching (h : s.Formed) (host : Host)
    (hslot : s.slot id = some (some stream)) (pending : List ℕ) :
    Formed { s.dispatching host id stream with pending } := by
  have hformed : (s.dispatching host id stream).Formed := by
    refine (h.emit (.dispatched _ _) not_false).setSlot ?_
      ((h.streams id stream hslot).withResponse _)
    exact hslot ▸ nofun
  exact hformed.withPending pending

theorem handleFrame_formed (h : s.Formed) :
    (handleFrame host header (s.takeHeader header)).Ends Formed fun _ => Formed := by
  have htaken := h.takeHeader header
  unfold handleFrame
  split_ifs with hid
  · refine .of_state ?_
    exact htaken.kept (Connection.receive_keeps host header _)
  · simp only [andThen_ends]
    refine (getOrCreateStream_formed htaken hid).mono (fun t ht => ?_) fun _ _ he => he
    refine (onStream_receive_formed host header header.streamId ht).mono
      (fun u hu => ?_) fun _ _ he => he
    refine .of_state ?_
    unfold respondIfDone
    split
    · rename_i stream hslot
      split_ifs
      · obtain ⟨pending, hsends⟩ := response_sends host hslot
        exact (hu.dispatching host hslot pending).sends hid hsends
      · exact hu
    · exact hu

end Session

/-- Connections that are running are well formed. -/
theorem formed_of_run {host : Host} {ok : Session → Label → Prop} {t : Session}
    (h : (server host).Run ok {} t) (hrunning : t.status = .running) : t.Formed := by
  refine (logged_of_run (D := fun _ => True) h .init (fun _ _ => ⟨⟩)
    (fun _ _ _ => ⟨⟩) (fun s t hs ht => hs.headed ht)
    (fun s id code hs _ => hs.reset id code) ?_
    (fun s pending hs => hs.withPending pending) ?_).1 hrunning
  · intro s bytes header t _ _ _ _ ht
    exact (Session.handleFrame_formed ht).mono (fun _ hu => hu) fun _ u hu =>
      ⟨⟨⟩, fun id code _ _ _ => hu.reset id code⟩
  · intro s pending t id response stream hs _ hslot hsends
    have hstream := hs.streams id stream hslot
    refine ((hs.withPending pending).setSlot ?_ (hstream.withResponse response)).sends
      hstream.ne_zero hsends
    exact hslot ▸ nofun

end Congelado.Http2
