import Congelado.Http2.Formed

/-!
# Invariants by slots

What is to be known of a connection by its log is often something of the connection, and something
of each of its streams that the other streams do not touch. A `Ledger` is such a pair. If it is
`Lawful` then only the stream of a frame has to be looked at: `handleFrame_holds` reduces what a
frame keeps to `Stream.receive`, and `holds_of_run` what a run keeps to its frames.
-/

namespace Congelado.Http2

open Codec Attempt Action

variable {events : List Event}

/-- An event that is not one of a stream. -/
def Event.Foreign (id : ℕ) : Event → Prop
  | received header _ => header.streamId ≠ id
  | fed streamId _ => streamId ≠ id
  | dispatched request _ => request.streamId ≠ id
  | sent _ => True

/-- What is to be known of a connection: of its log and the table of its decoder, and of the slots
by the log. -/
structure Ledger where
  shared : List Event → HPackTable → Prop
  slot : ℕ → List Event → Option (Option Stream) → Prop

namespace Ledger

/-- Nothing is to be known of closed streams, of the window and the response of a stream, and of
frames that are sent. -/
structure Lawful (k : Ledger) : Prop where
  sent : ∀ log table frame, k.shared log table → k.shared (log ++ [.sent frame]) table
  foreign : ∀ id log slot event, Event.Foreign id event → k.slot id log slot →
    k.slot id (log ++ [event]) slot
  closed : ∀ id log, k.slot id log (some none)
  inert : ∀ id log stream sendWindow response, k.slot id log (some (some stream)) →
    k.slot id log (some (some { stream with sendWindow, response }))

variable {k : Ledger}

theorem Lawful.append_foreign (hk : k.Lawful) {id : ℕ} {log : List Event}
    {slot : Option (Option Stream)} (h : k.slot id log slot)
    (hevents : ∀ event ∈ events, event.Foreign id) : k.slot id (log ++ events) slot := by
  induction events generalizing log with
  | nil =>
    rwa [List.append_nil]
  | cons event events ih =>
    rw [List.append_cons]
    refine ih (hk.foreign id log slot event (hevents event (.head _)) h) fun other hother => ?_
    exact hevents other (.tail _ hother)

end Ledger

theorem foreign_sent (id : ℕ) (frames : List Frame) :
    ∀ event ∈ frames.map Event.sent, event.Foreign id := by
  intro event hevent
  obtain ⟨frame, -, rfl⟩ := List.mem_map.1 hevent
  trivial

namespace Session

variable {stream : Stream}

/-- What is to be known of the slots is so, apart from the slot of `key`. The number 0 is that of no
stream. -/
structure KnownBut (k : Ledger) (key : ℕ) (s : Session) : Prop extends Formed s where
  slots : ∀ id, id ≠ 0 → id ≠ key → k.slot id s.conn.log (s.slot id)

/-- The ledger holds. -/
structure Holds (k : Ledger) (s : Session) : Prop extends KnownBut k 0 s where
  shared : k.shared s.conn.log s.conn.decodingTable

variable {k : Ledger} {s t : Session} {host : Host} {header : FrameHeader} {key : ℕ}

theorem Holds.but (h : s.Holds k) (key : ℕ) : s.KnownBut k key :=
  ⟨h.toFormed, fun id hid _ => h.slots id hid hid⟩

theorem KnownBut.holds (h : s.KnownBut k key) (hshared : k.shared s.conn.log s.conn.decodingTable)
    (hslot : key ≠ 0 → k.slot key s.conn.log (s.slot key)) : s.Holds k := by
  refine ⟨⟨h.toFormed, fun id hid _ => ?_⟩, hshared⟩
  by_cases hkey : id = key
  · subst hkey
    exact hslot hid
  · exact h.slots id hid hkey

section

variable (hk : k.Lawful)

include hk

section

variable (h : s.KnownBut k key)

include h

/-- A change that the other streams do not see. -/
theorem KnownBut.step (hformed : t.Formed) (hlog : t.conn.log = s.conn.log ++ events)
    (hevents : ∀ id, id ≠ key → ∀ event ∈ events, event.Foreign id)
    (hslots : ∀ id, id ≠ key → t.slot id = s.slot id) : t.KnownBut k key := by
  refine ⟨hformed, fun id hid hkey => ?_⟩
  rw [hslots id hkey, hlog]
  exact hk.append_foreign (h.slots id hid hkey) (hevents id hkey)

theorem KnownBut.setSlot {slot : Option Stream}
    (hformed : (s.setSlot key slot).Formed) : (s.setSlot key slot).KnownBut k key :=
  h.step hk hformed (List.append_nil _).symm (fun _ _ => nofun)
    fun _ hne => slot_setSlot_of_ne hne _

theorem KnownBut.reset
    (hshared : k.shared s.conn.log s.conn.decodingTable) (code : Http2ErrorCode) :
    (s.reset key code).Holds k := by
  have hlog : (s.reset key code).conn.log = s.conn.log ++ [Frame.rstStream key code].map .sent :=
    rfl
  refine (h.step hk (h.toFormed.reset key code) hlog (fun id _ => foreign_sent id _)
    fun id hne => ?_).holds (hk.sent _ _ _ hshared) fun _ => ?_
  · exact slot_setSlot_of_ne hne none
  · rw [Session.reset, slot_setSlot_self]
    exact hk.closed key _

end

theorem Holds.headed (h : s.Holds k) (hst : Headed s t) : t.Holds k := by
  refine ⟨⟨h.toFormed.headed hst, fun id hid _ => ?_⟩, ?_⟩
  · rw [hst.log]
    have hslot := h.slots id hid hid
    match ht : t.slot id with
    | none =>
      have hshape := hst.shape id
      rw [shape, ht, shape, Option.map_none, eq_comm, Option.map_eq_none_iff] at hshape
      rwa [hshape] at hslot
    | some none => exact hk.closed id _
    | some (some stream) =>
      obtain ⟨window, hs⟩ := exists_of_shape (hst.shape id) ht
      rw [hs] at hslot
      exact hk.inert id _ { stream with sendWindow := window } stream.sendWindow stream.response
        hslot
  · rw [hst.log, hst.decodingTable]
    exact h.shared

theorem Holds.sends (h : s.Holds k) (hkey : key ≠ 0) (hst : Sends key s t) : t.Holds k := by
  obtain ⟨frames, hlog, -⟩ := hst.log
  refine ((h.but key).step hk (h.toFormed.sends hkey hst) hlog (fun id _ => foreign_sent id frames)
    hst.others).holds ?_ fun _ => ?_
  · rw [hlog, hst.conn]
    exact closed_map (fun log => hk.sent log s.conn.decodingTable) frames h.shared
  · have hslot : k.slot key t.conn.log (s.slot key) := by
      rw [hlog]
      exact hk.append_foreign (h.slots key hkey hkey) (foreign_sent key frames)
    obtain hsame | ⟨-, hnone⟩ | ⟨stream, response, hbefore, hafter, -⟩ := hst.slot
    · rwa [hsame]
    · rw [hnone]
      exact hk.closed key _
    · rw [hbefore] at hslot
      rw [hafter]
      exact hk.inert key _ stream stream.sendWindow response hslot

end

theorem Holds.withPending (h : s.Holds k) (pending : List ℕ) : Holds k { s with pending } :=
  ⟨⟨h.toFormed.withPending pending, h.slots⟩, h.shared⟩

/-- A handler has left another response. -/
theorem Holds.setResponse (hk : k.Lawful) (h : s.Holds k) (response : Response)
    (hslot : s.slot key = some (some stream)) :
    (s.setSlot key (some { stream with response })).Holds k := by
  have hstream := h.streams key stream hslot
  have hne := hstream.ne_zero
  have hformed : (s.setSlot key (some { stream with response })).Formed :=
    h.toFormed.setSlot (hslot ▸ nofun) (hstream.withResponse response)
  refine ((h.but key).setSlot hk hformed).holds h.shared fun _ => ?_
  have hknown := h.slots key hne hne
  rw [hslot] at hknown
  rw [slot_setSlot_self]
  exact hk.inert key _ stream stream.sendWindow response hknown

/-! ### Frames -/

/-- What a stream has to show when it has accepted a frame: the ledger holds, also after a dispatch
of its request if that is due. -/
structure Accepted (k : Ledger) (key : ℕ) (c : Context) : Prop where
  shared : k.shared c.conn.log c.conn.decodingTable
  slot : k.slot key c.conn.log (some (some c.stream))
  dispatched : c.stream.remoteDone = true →
    let log := c.conn.log ++ [.dispatched c.stream.request (c.stream.response.setStatus "404")]
    k.shared log c.conn.decodingTable ∧ k.slot key log (some (some c.stream))

/-- What it has to show when it has thrown: the log is as it should be, and the ledger holds for the
connection if the stream is reset. -/
def Refused (k : Ledger) (D : List Event → Prop) (key : ℕ) (e : Thrown) (c : Context) : Prop :=
  D c.conn.log ∧ ∀ code, e = .streamError key code → k.shared c.conn.log c.conn.decodingTable

/-- The same of a session. -/
def Recovers (k : Ledger) (D : List Event → Prop) (e : Thrown) (s : Session) : Prop :=
  D s.conn.log ∧ ∀ id code, e = .streamError id code → id ≠ 0 → s.slot id ≠ none →
    (s.reset id code).Holds k

variable {D : List Event → Prop}

section

variable (hk : k.Lawful)

include hk

theorem Holds.ends (hD : ∀ log table, k.shared log table → D log)
    {o : Outcome Thrown Session} (h : o.state.Holds k) : o.Ends (Holds k) (Recovers k D) :=
  Outcome.ends_iff.2 ⟨fun _ => h, fun _ _ => ⟨hD _ _ h.shared,
    fun id code _ _ _ => (h.but id).reset hk h.shared code⟩⟩

/-- A request that is complete goes to its handler. -/
theorem respondIfDone_holds (h : s.KnownBut k key)
    (hslot : s.slot key = some (some stream)) (haccepted : Accepted k key ⟨s.conn, stream⟩) :
    (respondIfDone host key s).state.Holds k := by
  unfold respondIfDone
  rw [hslot]
  by_cases hdone : stream.remoteDone = true
  · simp only [if_pos hdone]
    obtain ⟨pending, hsends⟩ := response_sends host hslot
    obtain ⟨hshared, hknown⟩ := haccepted.dispatched hdone
    refine Holds.sends hk ((h.step hk (h.toFormed.dispatching host hslot pending) rfl
      (fun id hid event hevent => ?_) fun id hid => slot_setSlot_of_ne hid _).holds hshared
      fun _ => ?_) (h.streams key stream hslot).ne_zero hsends
    · rw [List.mem_singleton.1 hevent, Event.Foreign, (h.streams key stream hslot).requestId]
      exact hid.symm
    · have hafter : ({ s.dispatching host key stream with pending } : Session).slot key =
          (s.dispatching host key stream).slot key := rfl
      rw [hafter, slot_dispatching_self]
      exact hk.inert key _ stream stream.sendWindow _ hknown
  · simp only [if_neg hdone]
    refine h.holds haccepted.shared fun _ => ?_
    rw [hslot]
    exact haccepted.slot

section

variable (hD : ∀ log table, k.shared log table → D log)

include hD

/-- What a stream makes of a frame, and the answer. -/
theorem receive_holds
    (h : s.KnownBut k key) (hslot : s.slot key = some (some stream))
    (hstream : (Stream.receive host header ⟨s.conn, stream⟩).Ends (Accepted k key)
      (Refused k D key)) :
    (andThen (onStream key (Stream.receive host header)) (respondIfDone host key) s).Ends (Holds k)
      (Recovers k D) := by
  have hformed := onStream_receive_formed host header key h.toFormed
  obtain ⟨-, hid, -⟩ := h.streams key stream hslot
  rw [andThen_ends]
  rw [onStream_ends hslot] at hformed ⊢
  obtain ⟨blocks, hblocks⟩ := (Stream.receive_touches host header ⟨s.conn, stream⟩).log
  have hlogged : (Stream.receive host header ⟨s.conn, stream⟩).Ends
      (fun d => d.conn.log = s.conn.log ++ blocks.map (.fed stream.id))
      fun _ d => d.conn.log = s.conn.log ++ blocks.map (.fed stream.id) := .of_state hblocks
  -- the other streams do not see the blocks that this one has decoded
  have hput : ∀ d : Context, (s.put key d).Formed →
      d.conn.log = s.conn.log ++ blocks.map (.fed stream.id) → (s.put key d).KnownBut k key := by
    intro d hd hlog
    refine h.step hk hd hlog (fun id hother event hevent => ?_)
      fun id hother => slot_setSlot_of_ne hother _
    obtain ⟨block, -, rfl⟩ := List.mem_map.1 hevent
    rw [Event.Foreign, hid]
    exact hother.symm
  refine (hstream.and ((Stream.receive_throws host header ⟨s.conn, stream⟩).and
    (hformed.and hlogged))).mono ?_ ?_
  · rintro d ⟨haccepted, -, hd, hlog⟩
    exact Holds.ends hk hD (respondIfDone_holds hk (hput d hd hlog) (slot_setSlot_self _) haccepted)
  · rintro e d ⟨⟨hlogD, hshared⟩, hnames, hd, hlog⟩
    refine ⟨hlogD, fun id code he hne _ => ?_⟩
    obtain rfl : id = key := ((hnames.names id code he).resolve_right hne).trans hid
    exact (hput d hd hlog).reset hk (hshared code he) code

/-- **What a frame keeps.** Only the stream of the frame has to be looked at, with what is known of
its slot. -/
theorem handleFrame_holds
    (h : s.Holds k) (hlog : D (s.takeHeader header).conn.log)
    (hconn : header.streamId = 0 → header.type.isFragment = false →
      k.shared (s.takeHeader header).conn.log s.conn.decodingTable)
    (hstream : ∀ stream, s.slot header.streamId = some (some stream) ∨
        s.slot header.streamId = none ∧
          stream = .create header.streamId s.conn.remoteSettings.initialWindowSize →
      header.streamId ≠ 0 →
      (Stream.receive host header ⟨(s.takeHeader header).conn, stream⟩).Ends
        (Accepted k header.streamId) (Refused k D header.streamId)) :
    (handleFrame host header (s.takeHeader header)).Ends (Holds k) (Recovers k D) := by
  have htaken : (s.takeHeader header).KnownBut k header.streamId := by
    refine (h.but _).step hk (h.toFormed.takeHeader header) rfl (fun id hid event hevent => ?_)
      fun _ _ => rfl
    rw [List.mem_singleton.1 hevent]
    exact hid.symm
  unfold handleFrame
  split_ifs with hid
  · cases hfragment : header.type.isFragment with
    | true =>
      -- no header block is one of the connection
      have hthrow : Connection.receive host header =
          Action.throw (connectionError .protocolError) := by
        unfold Connection.receive
        obtain htype | htype | htype := FrameType.isFragment_iff.1 hfragment <;> rw [htype]
      rw [hthrow]
      exact ⟨hlog, fun _ _ he => by cases he⟩
    | false =>
      have hkept := Connection.receive_keeps host header (s.takeHeader header).conn
      obtain ⟨frames, hframes, -⟩ := hkept.log
      have hformed : Formed { s.takeHeader header with conn := _ } := htaken.toFormed.kept hkept
      refine Holds.ends hk hD (KnownBut.holds (htaken.step hk hformed hframes
        (fun id _ => foreign_sent id frames) fun _ _ => ?_) ?_ fun hne => absurd hid hne)
      · rfl
      · change k.shared (Connection.receive host header (s.takeHeader header).conn).state.log _
        rw [hframes]
        refine closed_map (D := fun log => k.shared log _) (fun log => hk.sent log _) frames ?_
        exact hkept.decodingTable ▸ hconn hid hfragment
  · rw [andThen_ends]
    refine ((getOrCreateStream_spec header.streamId (s.takeHeader header)).and
      (getOrCreateStream_formed htaken.toFormed hid)).mono ?_ ?_
    · rintro t ⟨⟨hsame, hslot⟩, hformed⟩
      obtain rfl | ⟨hnone, rfl⟩ := hsame
      · exact receive_holds hk hD htaken hslot (hstream _ (.inl hslot) hid)
      · refine receive_holds hk hD (htaken.setSlot hk hformed) hslot
          (hstream _ (.inr ⟨hnone, ?_⟩) hid)
        rw [target, hnone]
        rfl
    · rintro e t ⟨⟨rfl, code, lastStreamId, rfl⟩, -⟩
      exact ⟨hlog, fun _ _ he => by cases he⟩

end

end

end Session

/-! ### Runs -/

open Congelado.Http2.Session in
/-- **What a run keeps.** A ledger that is lawful, holds at the start and is kept by each frame that
meets the condition holds as long as the connection is running. -/
theorem holds_of_run {k : Ledger} {D : List Event → Prop} {host : Host}
    {ok : Session → Label → Prop} {t : Session} (hk : k.Lawful) (h : (server host).Run ok {} t)
    (hD : ∀ log table, k.shared log table → D log)
    (hsent : ∀ log frame, D log → D (log ++ [.sent frame]))
    (hshared : k.shared [] {}) (hslot : ∀ id, k.slot id [] none)
    (hframe : ∀ s bytes header t, ok s (.read bytes) → Headed (s.pushBack bytes) t →
      (s.pushBack bytes).upcoming = some (header, t.conn.reader.rest) → t.Holds k →
      (handleFrame host header (t.takeHeader header)).Ends (Holds k) (Recovers k D)) :
    (t.status = .running → t.Holds k) ∧ D t.conn.log := by
  have hinit : Holds k {} := ⟨⟨.init, fun id _ _ => hslot id⟩, hshared⟩
  refine logged_of_run h hinit (fun s hs => hD _ _ hs.shared) hsent
    (fun s t hs ht => hs.headed hk ht)
    (fun s id code hs _ => (hs.but id).reset hk hs.shared code) ?_
    (fun s pending hs => hs.withPending pending) ?_
  · intro s bytes header t hok ht hupcoming _ hJ
    exact hframe s bytes header t hok ht hupcoming hJ
  · intro s pending t id response stream hs _ hslot hsends
    exact ((hs.withPending pending).setResponse hk response hslot).sends hk
      (hs.streams id stream hslot).ne_zero hsends

end Congelado.Http2
