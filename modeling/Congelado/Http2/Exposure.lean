import Congelado.Http2.Isolation

/-!
# Frames that see the bytes behind them

A frame that is not contained has two continuations that tell on the session. What is told is in the
log, with the frame that an error is answered with (`notice`), in the windows and in the settings. A
`WINDOW_UPDATE` that is too short is the case with most outcomes: from what is seen after it, the
increment can be found, unless it went over the limit (`Fated.injective`).

With this, `isolated_iff` says exactly which frames are isolated.
-/

namespace Congelado.Http2

open Codec Attempt Action List

variable {window : ℤ} {bytes : List UInt8}

/-! ### Numbers -/

section Numbers

variable {payload : List UInt8}

theorem increment_eq (bytes : List UInt8) :
    increment bytes = readBigEndian (bytes.take 4) % 2 ^ 31 :=
  Nat.and_two_pow_sub_one_eq_mod _ 31

/-- The last of four bytes is not known if the payload is shorter. -/
theorem exists_increment_ne (h : payload.length < 4) (value : ℕ) :
    ∃ tail, increment (payload ++ tail) ≠ value := by
  have hlast : ∀ byte : UInt8, ∃ tail, ∃ front,
      increment (payload ++ tail) = (front * 256 + byte.toNat) % 2 ^ 31 := by
    intro byte
    refine ⟨List.replicate (3 - payload.length) 0 ++ [byte],
      readBigEndian (payload ++ List.replicate (3 - payload.length) 0), ?_⟩
    have hlength : (payload ++ (List.replicate (3 - payload.length) 0 ++ [byte])).length ≤ 4 := by
      simp only [length_append, length_replicate, length_singleton]
      omega
    rw [increment_eq, take_of_length_le hlength, ← append_assoc, readBigEndian_append]
    simp [readBigEndian]
  obtain ⟨even, front, heven⟩ := hlast 0
  obtain ⟨odd, front', hodd⟩ := hlast 1
  by_contra hall
  push Not at hall
  have heven' := heven.symm.trans (hall even)
  have hodd' := hodd.symm.trans (hall odd)
  simp only [UInt8.toNat_zero, UInt8.toNat_one] at heven' hodd'
  omega

/-- Other increments make other windows. -/
theorem raise_injective {i j : ℕ} (hi : i < 2 ^ 31) (hj : j < 2 ^ 31)
    (h : (window + i) % 2 ^ 32 = (window + j) % 2 ^ 32) : i = j := by
  omega

/-- A raise changes the window. -/
theorem raise_ne {i : ℕ} (hzero : i ≠ 0) (hi : i < 2 ^ 31) : (window + i) % 2 ^ 32 ≠ window := by
  omega

theorem raised_of_not_overflows {i : ℕ} (hzero : i ≠ 0) (h : ¬Overflows window i) (id : ℕ) :
    raised id window i = .ok ((window + i) % 2 ^ 32) := by
  have hle : ¬maxInitialWindowSize < (window + i) % 2 ^ 32 := fun hover => h ⟨hzero, hover⟩
  rw [raised, if_neg hzero, if_neg hle]

end Numbers

/-- The code of an error is found in the frame that is sent for it. -/
theorem getHttp2ErrorCode_writeBigEndian (code : Http2ErrorCode) :
    getHttp2ErrorCode (readBigEndian (writeBigEndian 4 code.toUnderlying)) = code := by
  cases code <;> decide

theorem Frame.rstStream_injective (id : ℕ) : Function.Injective (Frame.rstStream id) := by
  intro code code' h
  have hcode := congrArg (fun frame => getHttp2ErrorCode (readBigEndian frame.payload)) h
  simpa only [Frame.rstStream, getHttp2ErrorCode_writeBigEndian] using hcode

/-- The bytes of a chunk. -/
theorem exists_of_length_eq_six (h : bytes.length = 6) :
    ∃ a b c d e f, bytes = [a, b, c, d, e, f] := by
  match bytes, h with
  | [a, b, c, d, e, f], _ => exact ⟨a, b, c, d, e, f, rfl⟩

/-- Any settings can be completed to settings that are refused. -/
theorem Settings.exists_read_error (payload : List UInt8) :
    ∃ tail e, Settings.read (payload ++ tail) = .error e := by
  suffices ∀ settings, ∃ tail e, applyEach settings (pairs (payload ++ tail)) = .error e
    from this {}
  intro settings
  fun_induction pairs payload generalizing settings with
  | case1 a b c d f g rest ih =>
    cases happly : apply (readBigEndian [a, b]) (readBigEndian [c, d, f, g]) settings with
    | error e =>
      refine ⟨[], e, ?_⟩
      rw [append_nil, pairs, applyEach, happly]
      rfl
    | ok after =>
      obtain ⟨tail, e, htail⟩ := ih after
      refine ⟨tail, e, ?_⟩
      simp only [cons_append, pairs, applyEach, happly]
      exact htail
  | case2 short hshort =>
    -- the chunk is filled up, and `ENABLE_PUSH` set to two behind it
    have hlength : short.length < 6 := by
      by_contra hlong
      have hsix : (short.take 6).length = 6 := by
        rw [length_take]
        omega
      obtain ⟨a, b, c, d, e, f, htake⟩ := exists_of_length_eq_six hsix
      refine hshort a b c d e f (short.drop 6) ?_
      conv_lhs => rw [← take_append_drop 6 short, htake]
      rfl
    have hsix : (short ++ List.replicate (6 - short.length) 0).length = 6 := by
      rw [length_append, length_replicate]
      omega
    obtain ⟨a, b, c, d, f, g, hchunk⟩ := exists_of_length_eq_six hsix
    refine ⟨List.replicate (6 - short.length) 0 ++ [0, 2, 0, 0, 0, 2], ?_⟩
    rw [← append_assoc, hchunk]
    simp only [cons_append, nil_append, pairs, applyEach]
    cases apply (readBigEndian [a, b]) (readBigEndian [c, d, f, g]) settings with
    | error e => exact ⟨e, rfl⟩
    | ok after => exact ⟨_, rfl⟩

/-! ### What is seen of an outcome -/

/-- The frame that is sent for an error. -/
def notice : Option Thrown → List Event
  | some (.connectionError code lastStreamId) => [.sent (.goaway lastStreamId code)]
  | some (.streamError streamId code) => [.sent (.rstStream streamId code)]
  | _ => []

namespace Session

variable {s : Session} {o o' : Outcome Thrown Session}

/-- What has ended goes through the handlers of `receive`. -/
def resolve (o : Outcome Thrown Session) : Outcome Thrown Session :=
  match o.thrown with
  | none => o
  | some e => handleThrown e o.state

theorem receive_eq_resolve (host : Host) (s : Session) :
    receive host s = resolve (receiveFrame host s) := by
  rw [receive, rescue, resolve]
  cases (receiveFrame host s).thrown with
  | none => rfl
  | some e => rfl

theorem resolve_of_done (h : o.thrown = none) : resolve o = o := by
  rw [resolve, h]

theorem resolve_of_thrown {e : Thrown} (h : o.thrown = some e) :
    resolve o = handleThrown e o.state := by
  rw [resolve, h]

theorem resolve_conn (o : Outcome Thrown Session) : (resolve o).state.conn =
    { o.state.conn with log := o.state.conn.log ++ notice o.thrown } := by
  cases hthrown : o.thrown with
  | none =>
    rw [resolve_of_done hthrown]
    simp [notice]
  | some e =>
    rw [resolve_of_thrown hthrown]
    cases e with
    | connectionError code lastStreamId => rfl
    | streamError id code => exact markStreamClosed_conn id _
    | codec | outOfRange | fault => simp [handleThrown, notice]

/-- A fault is not answered. -/
theorem resolve_fault {f : Fault} :
    (resolve o).thrown = some (.fault f) ↔ o.thrown = some (.fault f) := by
  cases hthrown : o.thrown with
  | none => rw [resolve_of_done hthrown, hthrown]
  | some e =>
    rw [resolve_of_thrown hthrown]
    cases e with
    | connectionError code lastStreamId => simp [handleThrown, close, andThen, onConnection, zoom,
        Connection.send, Action.modify]
    | streamError id code =>
      simp only [handleThrown, andThen, onConnection, zoom, Connection.send, Action.modify]
      unfold markStreamClosed
      split_ifs
      · simp [Action.throw, connectionError]
      · split
        · simp [Action.done]
        · simp [Action.throw]
    | codec | outOfRange | fault => rfl

end Session

/-! ### The increment of a window -/

namespace Reader

variable {reader : Reader} {count : ℕ}

theorem read_of_le (hrest : count ≤ reader.rest.length) (hsize : count ≤ reader.size) :
    reader.read count = .ok (reader.rest.take count) := by
  rw [read, take, min_eq_left hsize, if_neg (not_lt.2 hrest)]

/-- A reader whose counter is ahead runs past its last node. -/
theorem read_of_lt (hrest : reader.rest.length < count) (hsize : reader.rest.length < reader.size) :
    reader.read count = .error (.fault .nullNode) := by
  rw [read, take, if_pos (lt_min hrest hsize)]

theorem length_le_of_read (h : reader.read count = .ok bytes) :
    bytes.length ≤ reader.rest.length := by
  unfold read take at h
  split_ifs at h
  cases h
  exact length_take_le' _ _

/-- All the bytes that are read are behind the frame. -/
theorem read_pushBack_length (reader : Reader) (bytes : List UInt8) :
    (reader.pushBack bytes).read bytes.length = .ok ((reader.rest ++ bytes).take bytes.length) := by
  refine read_of_le ?_ ?_
  · rw [pushBack, length_append]
    exact Nat.le_add_left _ _
  · exact Nat.le_add_left _ _

/-- A reader whose counter is ahead is told by four more bytes. -/
theorem synced_of_read (hshort : reader.rest.length < 4) (hsize : reader.rest.length ≤ reader.size)
    (h : (reader.pushBack []).read 4 = .error (.fault .nullNode) →
      (reader.pushBack (List.replicate 4 0)).read 4 =
        .ok ((reader.rest ++ List.replicate 4 0).take 4) → False) : reader.Synced := by
  by_contra hahead
  have hlt : reader.rest.length < reader.size := lt_of_le_of_ne hsize (Ne.symm hahead)
  refine h (read_of_lt ?_ ?_) (read_pushBack_length reader (List.replicate 4 0))
  · simpa [pushBack] using hshort
  · simpa [pushBack] using hlt

/-- What the reading of an increment may end with. -/
inductive Increment : Except Thrown ℕ → Prop
  | fault : Increment (.error (.fault .nullNode))
  | zero : Increment (.error (connectionError .protocolError))
  | found {increment : ℕ} (hzero : increment ≠ 0) (hlt : increment < 2 ^ 31) :
    Increment (.ok increment)

theorem readWindowIncrement_increment (reader : Reader) : Increment reader.readWindowIncrement := by
  unfold readWindowIncrement
  cases hread : reader.read 4 with
  | error e =>
    rw [(of_read_error hread).2]
    exact .fault
  | ok bytes =>
    change Increment (if readBigEndian bytes &&& 0x7FFFFFFF = 0 then _ else _)
    split_ifs with hzero
    · exact .zero
    · refine .found hzero ?_
      rw [Nat.and_two_pow_sub_one_eq_mod _ 31]
      exact Nat.mod_lt _ (by decide)

/-- If the increment is known whatever follows, but for one that goes over the limit, then it goes
over the limit. -/
theorem overflows_of_known (hshort : reader.rest.length < 4)
    (hsize : reader.rest.length ≤ reader.size)
    (hknown : ∀ a b, (reader.pushBack a).readWindowIncrement =
      (reader.pushBack b).readWindowIncrement ∨
      ∃ i, (reader.pushBack a).readWindowIncrement = .ok i ∧ Overflows window i) :
    reader.Synced ∧ ∀ tail, Overflows window (increment (reader.rest ++ tail)) := by
  have hsynced : reader.Synced := by
    refine synced_of_read hshort hsize fun hfault hread => ?_
    obtain heq | ⟨i, hi, -⟩ := hknown [] (List.replicate 4 0)
    · rw [readWindowIncrement, readWindowIncrement, hfault, hread] at heq
      change _ = (if readBigEndian _ &&& 0x7FFFFFFF = 0 then _ else _) at heq
      split_ifs at heq <;> cases heq
    · rw [readWindowIncrement, hfault] at hi
      cases hi
  refine ⟨hsynced, fun tail => ?_⟩
  obtain ⟨other, hother⟩ := exists_increment_ne hshort (increment (reader.rest ++ tail))
  have htail := (hsynced.pushBack tail).readWindowIncrement
  have hother' := (hsynced.pushBack other).readWindowIncrement
  obtain heq | ⟨i, hi, hover⟩ := hknown tail other
  · rw [htail, hother'] at heq
    change (if increment (reader.rest ++ tail) = 0 then _ else _) =
      (if increment (reader.rest ++ other) = 0 then _ else _) at heq
    refine absurd ?_ hother
    by_cases htailZero : increment (reader.rest ++ tail) = 0
    · by_contra hne
      rw [htailZero] at hne
      rw [if_pos htailZero, if_neg hne] at heq
      cases heq
    · rw [if_neg htailZero] at heq
      split_ifs at heq
      exact (Except.ok.inj heq).symm
  · rw [htail] at hi
    split_ifs at hi with hzero
    cases hi
    exact hover

end Reader

namespace Stream

/-- What the handling of a `WINDOW_UPDATE` throws, and the windows that it leaves. -/
structure Fate where
  thrown : Option Thrown
  streamWindow : ℤ
  window : ℤ

def fate (id : ℕ) (streamWindow window : ℤ) : Except Thrown ℕ → Fate
  | .error e => ⟨some e, streamWindow, window⟩
  | .ok increment =>
    match raised id streamWindow increment with
    | .error e => ⟨some e, streamWindow, window⟩
    | .ok streamAfter =>
      match raised 0 window increment with
      | .error e => ⟨some e, streamAfter, window⟩
      | .ok after => ⟨none, streamAfter, after⟩

theorem handleWindowUpdate_fate (c : Context) :
    let f :=
      fate c.stream.id c.stream.sendWindow c.conn.sendWindow c.conn.reader.readWindowIncrement
    handleWindowUpdate c = {
      state := {
        conn := { c.conn with sendWindow := f.window }
        stream := { c.stream with sendWindow := f.streamWindow } }
      thrown := f.thrown } := by
  rw [handleWindowUpdate, reading]
  cases c.conn.reader.readWindowIncrement with
  | error e => rfl
  | ok increment =>
    simp only [updateSendWindow, reading, fate]
    cases raised c.stream.id c.stream.sendWindow increment with
    | error e => rfl
    | ok streamAfter =>
      simp only [andThen, Action.modify, onConnection, zoom, Connection.updateSendWindow, reading]
      cases raised 0 c.conn.sendWindow increment with
      | error e => rfl
      | ok after => rfl

/-- The ways that it may go. -/
inductive Fated (id : ℕ) (streamWindow window : ℤ) : Except Thrown ℕ → Fate → Prop
  | fault : Fated id streamWindow window (.error (.fault .nullNode))
      ⟨some (.fault .nullNode), streamWindow, window⟩
  | zero : Fated id streamWindow window (.error (connectionError .protocolError))
      ⟨some (connectionError .protocolError), streamWindow, window⟩
  | streamOver {i : ℕ} (hover : Overflows streamWindow i) : Fated id streamWindow window (.ok i)
      ⟨some (.streamError id .flowControlError), streamWindow, window⟩
  | connectionOver {i : ℕ} (hzero : i ≠ 0) (hlt : i < 2 ^ 31) : Fated id streamWindow window (.ok i)
      ⟨some (.streamError 0 .flowControlError), (streamWindow + i) % 2 ^ 32, window⟩
  | raised {i : ℕ} (hzero : i ≠ 0) (hlt : i < 2 ^ 31) : Fated id streamWindow window (.ok i)
      ⟨none, (streamWindow + i) % 2 ^ 32, (window + i) % 2 ^ 32⟩

theorem fate_fated (id : ℕ) (streamWindow window : ℤ) {value : Except Thrown ℕ}
    (h : Reader.Increment value) :
    Fated id streamWindow window value (fate id streamWindow window value) := by
  cases h with
  | fault => exact .fault
  | zero => exact .zero
  | @found i hzero hlt =>
    by_cases hover : Overflows streamWindow i
    · simp only [fate, raised_of_overflows hover]
      exact .streamOver hover
    · by_cases hover' : Overflows window i
      · simp only [fate, raised_of_not_overflows hzero hover, raised_of_overflows hover']
        exact .connectionOver hzero hlt
      · simp only [fate, raised_of_not_overflows hzero hover, raised_of_not_overflows hzero hover']
        exact .raised hzero hlt

/-- Two fates that are not told apart. The window of the stream is seen after a `StreamError` that
has not emptied its slot. -/
structure Fate.Alike (f f' : Fate) : Prop where
  window : f.window = f'.window
  sent : f.thrown ≠ none → f'.thrown ≠ none → notice f.thrown = notice f'.thrown
  streamWindow : ∀ id code, f.thrown = some (.streamError 0 .flowControlError) →
    f'.thrown = some (.streamError id code) → f.streamWindow = f'.streamWindow

/-- The increment is told by what is sent and by the windows. -/
theorem Fated.injective {id : ℕ} {streamWindow window : ℤ} {value value' : Except Thrown ℕ}
    {f f' : Fate}
    (hf : Fated id streamWindow window value f) (hf' : Fated id streamWindow window value' f')
    (h : f.Alike f') : value = value' ∨ ∃ i, value = .ok i ∧ Overflows streamWindow i := by
  have hsome : ∀ e : Thrown, some e ≠ none := fun e => Option.some_ne_none e
  cases hf with
  | fault =>
    cases hf' with
    | fault => exact .inl rfl
    | zero | streamOver | connectionOver => cases h.sent (hsome _) (hsome _)
    | raised hzero hlt => exact absurd h.window.symm (raise_ne hzero hlt)
  | zero =>
    cases hf' with
    | zero => exact .inl rfl
    | fault | streamOver | connectionOver => cases h.sent (hsome _) (hsome _)
    | raised hzero hlt => exact absurd h.window.symm (raise_ne hzero hlt)
  | streamOver hover => exact .inr ⟨_, rfl, hover⟩
  | connectionOver hzero hlt =>
    cases hf' with
    | fault | zero => cases h.sent (hsome _) (hsome _)
    | streamOver => exact absurd (h.streamWindow _ _ rfl rfl) (raise_ne hzero hlt)
    | connectionOver _ hlt' =>
      exact .inl (congrArg Except.ok (raise_injective hlt hlt' (h.streamWindow _ _ rfl rfl)))
    | raised hzero' hlt' => exact absurd h.window.symm (raise_ne hzero' hlt')
  | raised hzero hlt =>
    cases hf' with
    | fault | zero | streamOver | connectionOver => exact absurd h.window (raise_ne hzero hlt)
    | raised _ hlt' => exact .inl (congrArg Except.ok (raise_injective hlt hlt' h.window))

/-- A frame of the connection raises one window only. -/
theorem fate_streamWindow (window : ℤ) (value : Except Thrown ℕ) :
    (fate 0 window window value).streamWindow = (fate 0 window window value).window := by
  cases value with
  | error e => rfl
  | ok i =>
    rw [fate]
    cases raised 0 window i with
    | error e => rfl
    | ok after => rfl

end Stream

/-! ### Frames of the connection -/

namespace Connection

variable {host : Host} {header : FrameHeader} {c : Connection} {o o' : Outcome Thrown Connection}

/-- Two outcomes that are not told apart. -/
structure Alike (o o' : Outcome Thrown Connection) : Prop where
  fault : ∀ fault, o.thrown = some (.fault fault) ↔ o'.thrown = some (.fault fault)
  log : o.state.log ++ notice o.thrown = o'.state.log ++ notice o'.thrown
  sendWindow : o.state.sendWindow = o'.state.sendWindow
  remoteSettings : o.state.remoteSettings = o'.state.remoteSettings

theorem receiveWindowUpdate_fate (c : Connection) :
    let f := Stream.fate 0 c.sendWindow c.sendWindow c.reader.readWindowIncrement
    receiveWindowUpdate c = ⟨{ c with sendWindow := f.window }, f.thrown⟩ := by
  rw [receiveWindowUpdate, reading]
  cases c.reader.readWindowIncrement with
  | error e => rfl
  | ok increment =>
    simp only [updateSendWindow, reading, Stream.fate]
    cases raised 0 c.sendWindow increment with
    | error e => rfl
    | ok after => rfl

/-- Settings that are taken either change the initial window or come to an end without an error. -/
theorem handleSettings_of_ok {settings : Settings} (hstate : c.remoteSettings.state ≠ .implemented)
    (hread : Settings.read c.reader.rest = .ok settings) :
    (handleSettings c).Ends (fun d => d.log = c.log) fun _ d =>
      d.remoteSettings.initialWindowSize ≠ c.remoteSettings.initialWindowSize := by
  rw [handleSettings, if_neg hstate, reading, hread]
  simp only [andThen_ends, modify_ends]
  unfold settleWindow
  split_ifs with hsame
  · rfl
  · simp only [andThen_ends, updateSendWindow, reading]
    cases raised 0 c.sendWindow _ with
    | error e => exact fun heq => hsame heq.symm
    | ok after => rfl

theorem receive_settings (htype : header.type = .settings) (hack : header.has Flags.ack = false) :
    receive host header c = andThen handleSettings
      (andThen (consume header.length) (send .settingsAck)) c := by
  simp only [receive, htype, hack, Bool.false_eq_true, if_false]

section Alike

variable (host) (hrest : c.reader.rest.length = header.length)
    (hsize : header.length ≤ c.reader.size)
  (h : ∀ a b, Alike (receive host header (c.pushBack a)) (receive host header (c.pushBack b)))

include h

include hrest hsize in
theorem update_of_alike (htype : header.type = .windowUpdate) : 4 ≤ header.length ∨
    c.reader.Synced ∧ ∀ tail, Overflows c.sendWindow (increment (c.reader.rest ++ tail)) := by
  refine or_iff_not_imp_left.2 fun hshort => ?_
  have hlt : c.reader.rest.length < 4 := by omega
  refine Reader.overflows_of_known hlt (hrest ▸ hsize) fun a b => ?_
  -- the bytes of the frame are consumed in any case
  let f :=
    fun tail => Stream.fate 0 c.sendWindow c.sendWindow (c.reader.pushBack tail).readWindowIncrement
  have hseen : ∀ tail, (receive host header (c.pushBack tail)).state.log ++
        notice (receive host header (c.pushBack tail)).thrown = c.log ++ notice (f tail).thrown ∧
      (receive host header (c.pushBack tail)).state.sendWindow = (f tail).window := by
    intro tail
    have hupdate : receiveWindowUpdate (c.pushBack tail) =
        ⟨{ c.pushBack tail with sendWindow := (f tail).window }, (f tail).thrown⟩ :=
      receiveWindowUpdate_fate _
    simp only [receive, htype, andThen, hupdate]
    cases (f tail).thrown with
    | none => exact ⟨rfl, rfl⟩
    | some e => exact ⟨rfl, rfl⟩
  obtain ⟨-, hlog, hwindow, -⟩ := h a b
  rw [(hseen a).1, (hseen b).1] at hlog
  rw [(hseen a).2, (hseen b).2] at hwindow
  have hfated := fun tail => Stream.fate_fated 0 c.sendWindow c.sendWindow
    (Reader.readWindowIncrement_increment (c.reader.pushBack tail))
  refine (hfated a).injective (hfated b)
    ⟨hwindow, fun _ _ => append_cancel_left hlog, fun _ _ _ _ => ?_⟩
  rw [Stream.fate_streamWindow, Stream.fate_streamWindow, hwindow]

include hrest in
theorem ping_of_alike (htype : header.type = .ping) : 8 ≤ header.length := by
  by_contra hshort
  have hlt : c.reader.rest.length < 8 := by omega
  have hread : ∀ byte, (c.pushBack (List.replicate 8 byte)).reader.read 8 =
      .ok ((c.reader.rest ++ List.replicate 8 byte).take 8) := fun byte =>
    Reader.read_pushBack_length c.reader (List.replicate 8 byte)
  by_cases hack : header.has Flags.ack
  · -- eight bytes are copied, and without more bytes they are not there
    have hthrown : ∃ fault, (receive host header (c.pushBack [])).thrown = some (.fault fault) := by
      simp only [receive, htype, hack, if_true, reading]
      cases hempty : (c.pushBack []).reader.read 8 with
      | error e => exact ⟨_, congrArg some (Reader.of_read_error hempty).2⟩
      | ok bytes =>
        have hbytes : bytes.length < 8 := by
          refine lt_of_le_of_lt (Reader.length_le_of_read hempty) ?_
          simpa [pushBack, Reader.pushBack] using hlt
        simp only [if_pos hbytes]
        exact ⟨_, rfl⟩
    have hdone : (receive host header (c.pushBack (List.replicate 8 0))).thrown = none := by
      have hbytes : ¬((c.reader.rest ++ List.replicate 8 (0 : UInt8)).take 8).length < 8 := by
        simp
      simp only [receive, htype, hack, if_true, reading, hread, if_neg hbytes]
      rfl
    obtain ⟨fault, hfault⟩ := hthrown
    rw [((h [] (List.replicate 8 0)).fault fault).1 hfault] at hdone
    cases hdone
  · -- eight bytes are sent back
    have hsent : ∀ byte, (receive host header (c.pushBack (List.replicate 8 byte))).state.log ++
        notice (receive host header (c.pushBack (List.replicate 8 byte))).thrown =
          c.log ++ [.sent (.pingAck ((c.reader.rest ++ List.replicate 8 byte).take 8))] := by
      intro byte
      simp only [receive, htype, hack, reading, hread]
      exact append_nil _
    have hlog := (h (List.replicate 8 0) (List.replicate 8 1)).log
    rw [hsent, hsent] at hlog
    have hbytes := congrArg Frame.payload (Event.sent.inj (singleton_injective
      (append_cancel_left hlog)))
    simp only [Frame.pingAck, take_append, take_of_length_le hlt.le, take_replicate] at hbytes
    have hreplicate := append_cancel_left hbytes
    have hpos : min (8 - c.reader.rest.length) 8 ≠ 0 := by omega
    rw [replicate_right_inj hpos] at hreplicate
    cases hreplicate

theorem settings_of_alike (htype : header.type = .settings) (hack : header.has Flags.ack = false) :
    c.remoteSettings.state = .implemented ∨ ∃ e, Settings.read c.reader.rest = .error e := by
  by_contra hnot
  rw [not_or, not_exists] at hnot
  obtain ⟨hstate, hok⟩ := hnot
  obtain ⟨tail, e, he⟩ := Settings.exists_read_error c.reader.rest
  obtain ⟨code, rfl⟩ := Settings.exists_of_read_error he
  have hread : ∃ settings, Settings.read (c.pushBack []).reader.rest = .ok settings := by
    cases hread : Settings.read (c.pushBack []).reader.rest with
    | error e =>
      refine absurd ?_ (hok e)
      simpa [pushBack, Reader.pushBack] using hread
    | ok settings => exact ⟨settings, rfl⟩
  obtain ⟨settings, hread⟩ := hread
  have hrefused : receive host header (c.pushBack tail) =
      Action.throw (connectionError code) (c.pushBack tail) := by
    rw [receive_settings htype hack, andThen,
      handleSettings_of_error (c := c.pushBack tail) hstate he]
    rfl
  obtain ⟨-, hlog, -, hsettings⟩ := h [] tail
  rw [hrefused, receive_settings htype hack, andThen] at hlog hsettings
  have hends := handleSettings_of_ok (c := c.pushBack []) hstate hread
  unfold Outcome.Ends at hends
  cases hthrown : (handleSettings (c.pushBack [])).thrown with
  | none =>
    simp only [hthrown] at hends hlog
    change ((handleSettings (c.pushBack [])).state.log ++ [.sent .settingsAck]) ++ [] =
      c.log ++ [.sent (.goaway maxConnectedStreams code)] at hlog
    rw [hends, append_nil] at hlog
    cases congrArg Frame.type (Event.sent.inj (singleton_injective (append_cancel_left hlog)))
  | some e =>
    simp only [hthrown] at hends hsettings
    exact hends (congrArg Settings.initialWindowSize hsettings)

include hrest hsize in
/-- A frame of the connection that is isolated is contained. -/
theorem contained_of_alike : c.Contained header c.reader.rest :=
  ⟨update_of_alike host hrest hsize h, ping_of_alike host hrest h, settings_of_alike host h⟩

end Alike

end Connection

/-! ### Frames on a stream -/

namespace Stream

section Admitted

variable {host : Host} {header : FrameHeader} {c : Context} {state : StreamState}
  (hexpecting : c.stream.expectingContinuation = true → header.type = .continuation)
  (hadvance : StreamStateMachine.advance c.stream.id header.type header.flags false c.stream.state =
    .ok state)

include hexpecting hadvance

theorem receive_of_admitted : receive host header c = andThen (handle host header)
    (andThen (onConnection (Connection.consume header.length)) settle)
    { c with stream := { c.stream with state } } := by
  have hawait : ¬(c.stream.expectingContinuation = true ∧ header.type ≠ .continuation) :=
    fun h => h.2 (hexpecting h.1)
  rw [receive_eq, if_neg hawait, hadvance]

theorem receive_windowUpdate (host : Host) (htype : header.type = .windowUpdate) {f : Fate}
    (hf :
      f = fate c.stream.id c.stream.sendWindow c.conn.sendWindow
      c.conn.reader.readWindowIncrement) :
    (receive host header c).state.conn.sendWindow = f.window ∧ ∀ e, f.thrown = some e →
      receive host header c = Action.throw e {
        conn := { c.conn with sendWindow := f.window }
        stream := { c.stream with state, sendWindow := f.streamWindow } } := by
  have hhandle : handle host header { c with stream := { c.stream with state } } = {
      state := {
        conn := { c.conn with sendWindow := f.window }
        stream := { c.stream with state, sendWindow := f.streamWindow } }
      thrown := f.thrown } := by
    simp only [handle, htype, hf]
    exact handleWindowUpdate_fate _
  rw [receive_of_admitted hexpecting hadvance, andThen, hhandle]
  cases hthrown : f.thrown with
  | none =>
    refine ⟨rfl, fun e he => ?_⟩
    cases he
  | some e =>
    refine ⟨rfl, fun e' he' => ?_⟩
    cases he'
    rfl

/-- The error of a `RST_STREAM` is thrown. -/
theorem receive_reset (host : Host) (htype : header.type = .rstStream) :
    receive host header c = match c.conn.reader.read 4 with
      | .error e => Action.throw e { c with stream := { c.stream with state } }
      | .ok bytes =>
          Action.throw (.streamError c.stream.id (getHttp2ErrorCode (readBigEndian bytes)))
          { c with stream := { c.stream with state, expectingContinuation := false } } := by
  have hhandle : handle host header { c with stream := { c.stream with state } } =
      handleReset { c with stream := { c.stream with state } } := by
    simp only [handle, htype]
  rw [receive_of_admitted hexpecting hadvance, andThen, hhandle, handleReset, reading]
  cases c.conn.reader.read 4 with
  | error e => rfl
  | ok bytes => rfl

end Admitted

end Stream

/-- The error that a `RST_STREAM` names, if its bytes are there. -/
def Reader.told (reader : Reader) : Option Http2ErrorCode :=
  match reader.read 4 with
  | .error _ => none
  | .ok bytes => some (getHttp2ErrorCode (readBigEndian bytes))

/-- If the error is known whatever follows then it is an internal one. -/
theorem Reader.internalError_of_known {reader : Reader} (hshort : reader.rest.length < 4)
    (hsize : reader.rest.length ≤ reader.size)
    (hknown : ∀ a b, (reader.pushBack a).told = (reader.pushBack b).told) :
    reader.Synced ∧ getHttp2ErrorCode (readBigEndian reader.rest) = .internalError := by
  have hsynced : reader.Synced := by
    refine synced_of_read hshort hsize fun hfault hread => ?_
    have htold := hknown [] (List.replicate 4 0)
    rw [told, told, hfault, hread] at htold
    cases htold
  have htold : ∀ tail : List UInt8, tail.length ≤ 1 →
      (reader.pushBack tail).told = some
        (getHttp2ErrorCode (readBigEndian (reader.rest ++ tail))) := by
    intro tail htail
    have hlength : (reader.rest ++ tail).length ≤ 4 := by
      rw [length_append]
      omega
    rw [told, (hsynced.pushBack tail).read]
    simp only [pushBack, take_of_length_le hlength]
  refine ⟨hsynced, ?_⟩
  have hcode : ∀ byte : UInt8, getHttp2ErrorCode (readBigEndian reader.rest) =
      getHttp2ErrorCode (256 * readBigEndian reader.rest + byte.toNat) := by
    intro byte
    have hone := hknown [] [byte]
    rw [htold [] (Nat.zero_le _), htold [byte] le_rfl, append_nil] at hone
    rw [Option.some.inj hone, readBigEndian, readBigEndian, foldl_append]
    rfl
  -- one more byte makes an unknown code of all but zero, and a known one of that
  by_cases hzero : readBigEndian reader.rest = 0
  · have hone := hcode 1
    rw [hzero] at hone
    cases hone
  · rw [hcode 0]
    refine getHttp2ErrorCode_of_le ?_
    omega

namespace Session

variable {host : Host} {header : FrameHeader} {s u : Session} {stream : Stream}

/-- What a frame does on a stream that is there, up to the answer to the request. -/
theorem handleFrame_of_live (hid : header.streamId ≠ 0)
    (hslot : s.slot header.streamId = some (some stream)) : handleFrame host header s =
      andThen (onStream header.streamId (Stream.receive host header))
        (respondIfDone host header.streamId) s := by
  have hcreate : getOrCreateStream header.streamId s = Action.done s := by
    rw [getOrCreateStream, hslot]
  rw [handleFrame, if_neg hid, andThen, hcreate]
  rfl

section Live

variable (hid : header.streamId ≠ 0) (hslot : s.slot header.streamId = some (some stream))
  {d : Context}

include hid hslot

/-- What is thrown by a frame on a stream comes out of it. -/
theorem handleFrame_of_thrown {e : Thrown}
    (h : Stream.receive host header ⟨s.conn, stream⟩ = Action.throw e d) :
    handleFrame host header s = Action.throw e (s.put header.streamId d) := by
  rw [handleFrame_of_live hid hslot, andThen]
  simp only [onStream, hslot, h, Action.throw]
  rfl

/-- The window of the connection is the one that the frame has left. -/
theorem handleFrame_sendWindow (h : (Stream.receive host header ⟨s.conn, stream⟩).state = d) :
    (handleFrame host header s).state.conn.sendWindow = d.conn.sendWindow := by
  rw [handleFrame_of_live hid hslot, andThen]
  split
  · obtain ⟨_, _, hconn⟩ := respondIfDone_conn host header.streamId
      (onStream header.streamId (Stream.receive host header) s).state
    rw [hconn]
    simp only [onStream, hslot, h]
    rfl
  · simp only [onStream, hslot, h]
    rfl

end Live

/-- A slot after a `StreamError` has its stream, or none. -/
theorem eq_of_slot_handleThrown {id key : ℕ} {code : Http2ErrorCode} {stream' : Stream}
    (h : s.slot key = some (some stream))
    (h' : (handleThrown (.streamError id code) s).state.slot key = some (some stream')) :
    stream' = stream := by
  simp only [handleThrown, andThen, onConnection, zoom, Connection.send, Action.modify] at h'
  unfold markStreamClosed at h'
  split_ifs at h' with hid
  · rw [throw_state, slot_withConn, h] at h'
    cases h'
    rfl
  · split at h'
    · rw [done_state] at h'
      by_cases hkey : key = id
      · subst hkey
        rw [slot_setSlot_self] at h'
        cases h'
      · rw [slot_setSlot_of_ne hkey, slot_withConn, h] at h'
        cases h'
        rfl
    · rw [throw_state, slot_withConn, h] at h'
      cases h'
      rfl

/-- What is seen of a `WINDOW_UPDATE` on a stream. -/
structure Seen (log : List Event) (key : ℕ) (f : Stream.Fate) (t : Session) : Prop where
  window : t.conn.sendWindow = f.window
  sent : f.thrown ≠ none → t.conn.log = log ++ notice f.thrown
  live : f.thrown = some (.streamError 0 .flowControlError) →
  ∃ stream, t.slot key = some (some stream)
  slot : ∀ id code stream, f.thrown = some (.streamError id code) →
    t.slot key = some (some stream) →
    stream.sendWindow = f.streamWindow

theorem Seen.alike {log : List Event} {key : ℕ} {f f' : Stream.Fate} {t t' : Session}
    (h : Seen log key f t) (h' : Seen log key f' t') (htwin : Twin t t') : f.Alike f' := by
  obtain ⟨reader, rfl⟩ := htwin
  refine ⟨h.window.symm.trans h'.window, fun hthrown hthrown' => ?_,
    fun id code hthrown hthrown' => ?_⟩
  · exact append_cancel_left ((h.sent hthrown).symm.trans (h'.sent hthrown'))
  · obtain ⟨stream, hstream⟩ := h.live hthrown
    exact (h.slot _ _ stream hthrown hstream).symm.trans (h'.slot id code stream hthrown' hstream)

section Isolated

variable (host) (hid : header.streamId ≠ 0) (hslot : s.slot header.streamId = some (some stream))
  {state : StreamState}
  (hexpecting : stream.expectingContinuation = true → header.type = .continuation)
  (hadvance : StreamStateMachine.advance stream.id header.type header.flags false stream.state =
    .ok state)

include hid hslot hexpecting hadvance

theorem seen_windowUpdate (htype : header.type = .windowUpdate) : Seen s.conn.log header.streamId
    (Stream.fate stream.id stream.sendWindow s.conn.sendWindow s.conn.reader.readWindowIncrement)
    (resolve (handleFrame host header s)).state := by
  generalize hf : Stream.fate stream.id stream.sendWindow s.conn.sendWindow
    s.conn.reader.readWindowIncrement = f
  obtain ⟨hwindow, hthrows⟩ := Stream.receive_windowUpdate (c := ⟨s.conn, stream⟩)
    hexpecting hadvance host htype hf.symm
  refine ⟨?_, fun hthrown => ?_, fun hthrown => ?_, fun id code stream' hthrown hstream => ?_⟩
  · rw [resolve_conn]
    exact (handleFrame_sendWindow hid hslot rfl).trans hwindow
  · obtain ⟨e, he⟩ := Option.ne_none_iff_exists'.1 hthrown
    rw [resolve_conn, handleFrame_of_thrown hid hslot (hthrows e he), he]
    rfl
  · rw [handleFrame_of_thrown hid hslot (hthrows _ hthrown)]
    exact ⟨_, slot_setSlot_self _⟩
  · rw [handleFrame_of_thrown hid hslot (hthrows _ hthrown)] at hstream
    rw [eq_of_slot_handleThrown (slot_setSlot_self _) hstream]

/-- A `RST_STREAM` is answered with the error that it names. -/
theorem log_reset (htype : header.type = .rstStream) :
    (resolve (handleFrame host header s)).state.conn.log = s.conn.log ++
      s.conn.reader.told.toList.map fun code => .sent (.rstStream stream.id code) := by
  have hreceive := Stream.receive_reset (c := ⟨s.conn, stream⟩) hexpecting hadvance host htype
  unfold Reader.told
  cases hread : s.conn.reader.read 4 with
  | error e =>
    rw [hread] at hreceive
    rw [(Reader.of_read_error hread).2] at hreceive
    rw [resolve_conn, handleFrame_of_thrown hid hslot hreceive]
    rfl
  | ok bytes =>
    rw [hread] at hreceive
    rw [resolve_conn, handleFrame_of_thrown hid hslot hreceive]
    rfl

end Isolated

/-- A frame on a stream that is isolated is contained. -/
theorem contained_of_isolated_stream (hid : header.streamId ≠ 0)
    (hslot : u.slot header.streamId = some (some stream))
    (hrest : u.conn.reader.rest.length = header.length) (hsize : header.length ≤ u.conn.reader.size)
    (hadmits : stream.Admits header)
    (h : ∀ a b, Twin (resolve (handleFrame host header (u.pushBack a))).state
      (resolve (handleFrame host header (u.pushBack b))).state) :
    Stream.Contained header u.conn.reader.rest ⟨u.conn, stream⟩ := by
  obtain ⟨hexpecting, state, hadvance⟩ := hadmits
  refine ⟨fun htype => ?_, fun htype => ?_⟩
  · refine or_iff_not_imp_left.2 fun hshort => ?_
    have hlt : u.conn.reader.rest.length < 4 := by omega
    refine Reader.overflows_of_known hlt (hrest ▸ hsize) fun a b => ?_
    have hfated := fun tail => Stream.fate_fated stream.id stream.sendWindow u.conn.sendWindow
      (Reader.readWindowIncrement_increment (u.conn.reader.pushBack tail))
    have hseen := fun tail =>
      seen_windowUpdate (s := u.pushBack tail) host hid hslot hexpecting hadvance htype
    exact (hfated a).injective (hfated b) ((hseen a).alike (hseen b) (h a b))
  · refine or_iff_not_imp_left.2 fun hshort => ?_
    have hlt : u.conn.reader.rest.length < 4 := by omega
    refine Reader.internalError_of_known hlt (hrest ▸ hsize) fun a b => ?_
    have hlog := fun tail =>
      log_reset (s := u.pushBack tail) host hid hslot hexpecting hadvance htype
    obtain ⟨reader, htwin⟩ := h a b
    have hsame : (resolve (handleFrame host header (u.pushBack b))).state.conn.log =
        (resolve (handleFrame host header (u.pushBack a))).state.conn.log := by
      rw [htwin]
    rw [hlog, hlog] at hsame
    have htold := map_injective_iff.2 (fun code code' heq =>
      Frame.rstStream_injective stream.id (Event.sent.inj heq)) (append_cancel_left hsame)
    have hhead := congrArg List.head? htold.symm
    rwa [Option.head?_toList, Option.head?_toList] at hhead

/-! ### The condition -/

variable {payload : List UInt8}

/-- A frame of the connection that is isolated is contained. -/
theorem contained_of_isolated_connection (hid : header.streamId = 0)
    (hrest : u.conn.reader.rest.length = header.length) (hsize : header.length ≤ u.conn.reader.size)
    (h : ∀ a b, (resolve (handleFrame host header (u.pushBack a))).Related Twin
      (resolve (handleFrame host header (u.pushBack b)))) :
    u.conn.Contained header u.conn.reader.rest := by
  refine Connection.contained_of_alike host hrest hsize fun a b => ?_
  have hframe : ∀ tail, handleFrame host header (u.pushBack tail) =
      onConnection (Connection.receive host header) (u.pushBack tail) := by
    intro tail
    rw [handleFrame, if_pos hid]
  obtain ⟨hthrown, reader, hstate⟩ := h a b
  have hconn : (resolve (handleFrame host header (u.pushBack b))).state.conn =
      { (resolve (handleFrame host header (u.pushBack a))).state.conn with reader } := by
    rw [hstate]
  rw [hframe, hframe, resolve_conn, resolve_conn] at hconn
  rw [hframe, hframe] at hthrown
  refine ⟨fun fault => ?_, (congrArg Connection.log hconn).symm,
    (congrArg Connection.sendWindow hconn).symm, (congrArg Connection.remoteSettings hconn).symm⟩
  have hfault := resolve_fault (o := onConnection (Connection.receive host header) (u.pushBack a))
    (f := fault)
  rw [hthrown] at hfault
  exact hfault.symm.trans resolve_fault

/-- **Isolation of frames.** What follows a frame makes no difference exactly if the frame has all
the bytes that are read for it, or does not come to its handler, or fails in any case. -/
theorem isolated_iff (host : Host) (hupcoming : s.upcoming = some (header, payload))
    (hlength : payload.length = header.length) :
    s.Isolated host ↔ ∀ t, s.atFrame = some t → t.Contained header payload := by
  refine ⟨fun h t ht => ?_, isolated_of_contained hupcoming hlength⟩
  obtain ⟨rfl, hsize, hframe⟩ := receiveFrame_of_atFrame host hupcoming ht
  have hresolved :
    ∀ a b, (resolve (handleFrame host header ((t.takeHeader header).pushBack a))).Related Twin
      (resolve (handleFrame host header ((t.takeHeader header).pushBack b))) := by
    intro a b
    have hab := h a b
    rwa [receive_eq_resolve, receive_eq_resolve, hframe, hframe, takeHeader_pushBack hlength,
      takeHeader_pushBack hlength] at hab
  unfold Contained
  split_ifs with hid
  · obtain ⟨hupdate, hping, hsettings⟩ :=
      contained_of_isolated_connection (u := t.takeHeader header) hid hlength hsize hresolved
    exact ⟨hupdate, hping, hsettings⟩
  · intro stream hslot hadmits
    obtain ⟨hupdate, hreset⟩ := contained_of_isolated_stream (u := t.takeHeader header) hid hslot
      hlength hsize hadmits fun a b => (hresolved a b).state
    exact ⟨hupdate, hreset⟩

/-- An update of the window with the four bytes it needs. -/
theorem isolated_iff_window_update :
    (({} : Session).pushBack
      (Frame.write { type := .windowUpdate, streamId := 0, payload := [0, 0, 0, 1] })).Isolated
        keepingHost := by
  have hupcoming : (({} : Session).pushBack
      (Frame.write { type := .windowUpdate, streamId := 0, payload := [0, 0, 0, 1] })).upcoming =
      some (⟨4, .windowUpdate, 0, 0⟩, [0, 0, 0, 1]) := by decide +kernel
  refine (isolated_iff keepingHost hupcoming rfl).2 fun t _ => ?_
  exact ⟨fun _ => .inl le_rfl, nofun, nofun⟩

/-- Settings that are empty are acknowledged, but not if the bytes that follow them can be read as a
setting that is refused. -/
theorem settings_not_isolated :
    let s := ({} : Session).pushBack (Frame.write { type := .settings, streamId := 0 })
    s.upcoming = some (⟨0, .settings, 0, 0⟩, []) ∧ ¬s.Isolated keepingHost := by
  refine ⟨by decide +kernel, fun h => ?_⟩
  have hstatus := (h [] [0, 2, 0, 0, 0, 2]).state.status
  revert hstatus
  decide +kernel

end Session

end Congelado.Http2
