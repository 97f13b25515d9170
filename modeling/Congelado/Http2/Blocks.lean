import Congelado.Http2.Slots

/-!
# Header blocks and the decoder

The table of the decoder has to follow each header block that the peer has sent. The fragments that
were received on a stream, up to one with `END_HEADERS`, make up a block (`assemble`), and the log
also has the blocks that went to the decoder. The two part if a block is dropped, because its stream
was closed by the peer, or if it is not decoded to its end, because of an index that the table does
not have; and if a payload is more than a fragment. `LegibleFrame` says when this does not happen.
-/

namespace Congelado.Http2

open Codec Attempt Action List Transition

variable {key : ℕ} {event : Event}

/-! ### Blocks -/

section Fragment

variable (header : FrameHeader) (payload : List UInt8)

/-- The payload without its padding. -/
def FrameHeader.unpadded : List UInt8 :=
  if header.has Flags.padded then
    (payload.drop 1).take (payload.length - 1 - (payload.headD 0).toNat)
  else payload

/-- The part of a payload that belongs to a header block. -/
def FrameHeader.fragment : List UInt8 :=
  match header.type with
  | .headers => (header.unpadded payload).drop (if header.has Flags.priority then 5 else 0)
  | .pushPromise => (header.unpadded payload).drop 4
  | _ => payload

end Fragment

/-- The blocks that were received. -/
structure Assembly where
  /-- What was received of the block of a stream that has not ended. -/
  opened : ℕ → List UInt8 := fun _ => []
  /-- The blocks that are complete, with their streams. There is nothing to decode in an empty
  one. -/
  complete : List (ℕ × List UInt8) := []

/-- One more fragment. -/
def Assembly.add (id : ℕ) (fragment : List UInt8) (ends : Bool) (assembly : Assembly) : Assembly :=
  let block := assembly.opened id ++ fragment
  if ends then
    { opened := Function.update assembly.opened id []
      complete := assembly.complete ++ if block = [] then [] else [(id, block)] }
  else { assembly with opened := Function.update assembly.opened id block }

def Assembly.step (assembly : Assembly) : Event → Assembly
  | .received header payload =>
    if header.type.isFragment then
      assembly.add header.streamId (header.fragment payload) (header.has Flags.endHeaders)
    else assembly
  | _ => assembly

def assemble (log : List Event) : Assembly := log.foldl Assembly.step {}

/-- The blocks that went to the decoder. -/
def fedBlocks (log : List Event) : List (ℕ × List UInt8) :=
  log.filterMap fun
    | .fed id block => some (id, block)
    | _ => none

/-- The table after a block that is decoded to its end. -/
def decodeBlock (host : Host) (table : HPackTable) (block : ℕ × List UInt8) : Option HPackTable :=
  let fed := feed host.hit host.width block.2 table
  if fed.error = none ∧ block.2.length ≤ fed.consumed then some fed.table else none

/-- Every complete block went to the decoder, once and in its turn, and was decoded to its end. -/
structure InStep (host : Host) (log : List Event) (table : HPackTable) : Prop where
  fed : fedBlocks log = (assemble log).complete
  decoded : (assemble log).complete.foldlM (decodeBlock host) {} = some table

/-! ### The condition -/

/-- What a fragment has to be: one that is nothing but a fragment, on a stream that the peer has not
closed, and not the end of a block that is refused. -/
structure Session.LegibleFrame (host : Host) (s : Session) (header : FrameHeader)
    (rest : List UInt8) : Prop where
  promise : header.type ≠ .pushPromise
  plain : header.type = .headers →
    header.has Flags.padded = false ∧ header.has Flags.priority = false
  closed : header.type = .headers → (s.target header.streamId).state ≠ .halfClosedRemote
  block : header.has Flags.endHeaders = true →
    let stream := s.target header.streamId
    let block := stream.block.getD [] ++ rest.take header.length
    ∀ id code, refusal stream.id block (feed host.hit host.width block s.conn.decodingTable) ≠
      some (.streamError id code)

/-- The frame at hand is legible, if it is a fragment on a stream. -/
def LegibleStep (host : Host) (s : Session) : Label → Prop
  | .read bytes => ∀ header rest, (s.pushBack bytes).upcoming = some (header, rest) →
    header.streamId ≠ 0 → header.type.isFragment = true →
    (s.pushBack bytes).LegibleFrame host header rest
  | .reply _ _ => True

/-! ### Logs -/

variable {log : List Event} {id : ℕ} {host : Host} {table : HPackTable} {header : FrameHeader}
  {payload : List UInt8}

theorem assemble_append (event : Event) :
    assemble (log ++ [event]) = (assemble log).step event := by
  rw [assemble, foldl_append]
  rfl

theorem assemble_fed (block : List UInt8) : assemble (log ++ [.fed id block]) = assemble log :=
  assemble_append _

theorem fedBlocks_append (event : Event) :
    fedBlocks (log ++ [event]) = fedBlocks log ++ fedBlocks [event] := filterMap_append

theorem Assembly.add_opened_of_ne {assembly : Assembly} {other : ℕ} (h : other ≠ id)
    (fragment : List UInt8) (ends : Bool) :
    (assembly.add id fragment ends).opened other = assembly.opened other := by
  unfold add
  split_ifs <;> exact Function.update_of_ne h _ _

/-- An event that is not one of a stream leaves its block alone. -/
theorem opened_foreign (h : event.Foreign id) :
    (assemble (log ++ [event])).opened id = (assemble log).opened id := by
  rw [assemble_append]
  cases event with
  | received header payload =>
    simp only [Assembly.step]
    split_ifs
    · exact Assembly.add_opened_of_ne (Ne.symm h) _ _
    · rfl
  | fed | dispatched | sent => rfl

/-- An event that ends no block and feeds none. -/
theorem InStep.append (h : InStep host log table)
    (hcomplete : ((assemble log).step event).complete = (assemble log).complete)
    (hfed : fedBlocks [event] = []) : InStep host (log ++ [event]) table := by
  refine ⟨?_, ?_⟩
  · rw [fedBlocks_append, hfed, append_nil, assemble_append, hcomplete]
    exact h.fed
  · rw [assemble_append, hcomplete]
    exact h.decoded

/-- The block that was completed last goes to the decoder. -/
theorem inStep_fed {block : List UInt8} {after : HPackTable}
    (hcomplete : (assemble log).complete = fedBlocks log ++ [(id, block)])
    (hdecoded : (fedBlocks log).foldlM (decodeBlock host) {} = some table)
    (hblock : decodeBlock host table (id, block) = some after) :
    InStep host (log ++ [.fed id block]) after := by
  refine ⟨?_, ?_⟩
  · rw [assemble_fed, hcomplete, fedBlocks_append]
    rfl
  · rw [assemble_fed, hcomplete, foldlM_append, hdecoded]
    simp only [Option.bind_eq_bind, Option.bind_some, foldlM_cons, hblock, foldlM_nil]
    rfl

/-- A block that is not refused is decoded to its end. -/
theorem decodeBlock_of_refusal {block : List UInt8}
    (h : refusal id block (feed host.hit host.width block table) = none) :
    decodeBlock host table (id, block) = some (feed host.hit host.width block table).table := by
  unfold refusal at h
  split at h
  · cases h
  · cases h
  · rename_i herror
    split_ifs at h with hconsumed
    exact if_pos ⟨herror, not_lt.1 hconsumed⟩

/-! ### Streams -/

namespace Stream

/-- A stream has collected what was received of its block. -/
structure Assembled (key : ℕ) (log : List Event) (stream : Stream) : Prop where
  block : stream.block = some ((assemble log).opened key)
  trailers : stream.primaryHeadersDone = false → stream.trailerBlock = none

theorem Assembled.sameBlock {c d : Context} (h : c.stream.Assembled key log)
    (hcd : SameBlock c d) : d.stream.Assembled key log := by
  refine ⟨?_, ?_⟩
  · rw [Stream.block, hcd.primary, hcd.trailers, hcd.block]
    exact h.block
  · rw [hcd.primary, hcd.trailers]
    exact h.trailers

/-! ### Fragments -/

section Fragments

variable {stream : Stream} {block : List UInt8} {c : Context}

theorem block_setBlock (stream : Stream) (block : List UInt8) :
    (stream.setBlock (some block)).block = some block := by
  unfold setBlock
  split_ifs with hprimary
  · rw [Stream.block, if_pos hprimary]
    rfl
  · rw [Stream.block, if_neg hprimary]

theorem trailerBlock_setBlock (h : stream.primaryHeadersDone = false)
    (block : Option (List UInt8)) :
    (stream.setBlock block).trailerBlock = stream.trailerBlock := by
  rw [setBlock, h]
  rfl

theorem primaryHeadersDone_setBlock (block : Option (List UInt8)) :
    (stream.setBlock block).primaryHeadersDone = stream.primaryHeadersDone := by
  obtain ⟨headerBlock, trailerBlock, hset⟩ := exists_setBlock block stream
  rw [hset]

/-- A block that was decoded leaves room for trailers. -/
theorem block_decoded (h : stream.primaryHeadersDone = false → stream.trailerBlock = none) :
    ({ stream.setBlock none with primaryHeadersDone := true } : Stream).block = some [] := by
  have htrailers : (stream.setBlock none).trailerBlock = none := by
    cases hprimary : stream.primaryHeadersDone with
    | false =>
      rw [trailerBlock_setBlock hprimary]
      exact h hprimary
    | true =>
      rw [setBlock, hprimary]
      rfl
  rw [Stream.block, if_pos rfl, htrailers]
  rfl

/-- A block that has ended goes to the decoder. -/
theorem handleHeader_inStep (hblock : c.stream.block = some block)
    (htrailers : c.stream.primaryHeadersDone = false → c.stream.trailerBlock = none)
    (hopened : (assemble c.conn.log).opened c.stream.id = [])
    (hcomplete : (assemble c.conn.log).complete =
      fedBlocks c.conn.log ++ if block = [] then [] else [(c.stream.id, block)])
    (hdecoded : (fedBlocks c.conn.log).foldlM (decodeBlock host) {} = some c.conn.decodingTable) :
    (handleHeader host block c).Ends
      (fun d => InStep host d.conn.log d.conn.decodingTable ∧
        d.stream.Assembled c.stream.id d.conn.log)
      fun _ _ => True := by
  unfold handleHeader
  split_ifs with hempty
  · rw [if_pos hempty, append_nil] at hcomplete
    refine ⟨⟨hcomplete.symm, hcomplete ▸ hdecoded⟩, ?_, htrailers⟩
    rw [done_state, hblock, hopened, hempty]
  · simp only
    split
    · trivial
    · rename_i after hafter
      rw [if_neg hempty] at hcomplete
      have hsame : after.id = c.stream.id ∧
          (after.primaryHeadersDone = false → after.trailerBlock = none) := by
        obtain ⟨request, response, rfl, -⟩ := exists_addDecoded hafter
        exact ⟨rfl, htrailers⟩
      rw [hsame.1]
      split
      · rename_i hnone
        refine ⟨inStep_fed hcomplete hdecoded (decodeBlock_of_refusal hnone), ?_, nofun⟩
        refine (block_decoded hsame.2).trans (congrArg some ?_)
        exact ((congrArg (Assembly.opened · c.stream.id) (assemble_fed block)).trans hopened).symm
      · trivial
      · trivial

/-- What a stream makes of a legible fragment. -/
theorem handleFragment_inStep (hin : InStep host log c.conn.decodingTable)
    (hlog : c.conn.log = log ++ [.received header (c.conn.reader.viewed header.length)])
    (hid : header.streamId = c.stream.id) (hassembled : c.stream.Assembled c.stream.id log)
    (hfragment : header.type.isFragment = true)
    (hpayload : ∀ payload, header.fragment payload = payload) :
    (handleFragment host header c).Ends
      (fun d => InStep host d.conn.log d.conn.decodingTable ∧
        d.stream.Assembled c.stream.id d.conn.log)
      fun _ _ => True := by
  have hassemble : assemble c.conn.log = (assemble log).add c.stream.id
      (c.conn.reader.viewed header.length) (header.has Flags.endHeaders) := by
    rw [hlog, assemble_append]
    simp only [Assembly.step, hfragment, if_true, hpayload, hid]
  have hfed : fedBlocks c.conn.log = (assemble log).complete := by
    rw [hlog, fedBlocks_append, hin.fed]
    exact append_nil _
  have htrailers : ∀ block, (c.stream.setBlock block).primaryHeadersDone = false →
      (c.stream.setBlock block).trailerBlock = none := by
    intro block hprimary
    rw [primaryHeadersDone_setBlock] at hprimary
    rw [trailerBlock_setBlock hprimary]
    exact hassembled.trailers hprimary
  unfold handleFragment
  rw [hassembled.block]
  simp only
  split_ifs with hlength hend
  · trivial
  · -- the block is complete
    obtain ⟨headerBlock, trailerBlock, hset⟩ := exists_setBlock
      (some ((assemble log).opened c.stream.id ++ c.conn.reader.viewed header.length)) c.stream
    have hblock := block_setBlock c.stream
      ((assemble log).opened c.stream.id ++ c.conn.reader.viewed header.length)
    have htrail := htrailers
      (some ((assemble log).opened c.stream.id ++ c.conn.reader.viewed header.length))
    rw [hset] at hblock htrail ⊢
    refine handleHeader_inStep hblock htrail ?_ ?_ ?_
    · change (assemble c.conn.log).opened c.stream.id = []
      rw [hassemble, hend]
      exact Function.update_self _ _ _
    · change (assemble c.conn.log).complete = fedBlocks c.conn.log ++ _
      rw [hassemble, hend, hfed]
      rfl
    · change (fedBlocks c.conn.log).foldlM _ _ = _
      rw [hfed]
      exact hin.decoded
  · -- more fragments are to come
    rw [Bool.not_eq_true] at hend
    rw [hend] at hassemble
    refine ⟨⟨?_, ?_⟩, ?_, htrailers _⟩
    · change fedBlocks c.conn.log = (assemble c.conn.log).complete
      rw [hfed, hassemble]
      rfl
    · change (assemble c.conn.log).complete.foldlM _ _ = _
      rw [hassemble]
      exact hin.decoded
    · refine (block_setBlock c.stream _).trans (congrArg some ?_)
      change _ = (assemble c.conn.log).opened c.stream.id
      rw [hassemble, Assembly.add, if_neg Bool.false_ne_true]
      exact (Function.update_self c.stream.id _ (assemble log).opened).symm

end Fragments

end Stream

/-! ### Sessions -/

/-- What is known of a slot. -/
def AssembledSlot (id : ℕ) (log : List Event) : Option (Option Stream) → Prop
  | none => (assemble log).opened id = []
  | some none => True
  | some (some stream) => stream.Assembled id log

/-- The decoder follows the blocks. -/
def blockLedger (host : Host) : Ledger where
  shared := InStep host
  slot := AssembledSlot

theorem Stream.Assembled.of_opened {stream : Stream} {log' : List Event}
    (h : stream.Assembled key log) (hlog : (assemble log').opened key = (assemble log).opened key) :
    stream.Assembled key log' := ⟨h.block.trans (congrArg some hlog.symm), h.trailers⟩

theorem blockLedger_lawful (host : Host) : (blockLedger host).Lawful where
  sent _ _ _ h := h.append rfl rfl
  foreign id log slot event hevent h := by
    have hopened : (assemble (log ++ [event])).opened id = (assemble log).opened id :=
      opened_foreign hevent
    match slot with
    | none => exact hopened.trans h
    | some none => trivial
    | some (some stream) => exact Stream.Assembled.of_opened h hopened
  closed _ _ := trivial
  inert _ _ _ _ _ h := ⟨h.block, h.trailers⟩

/-- A dispatch has nothing to do with the decoder. -/
theorem accepted_of_inStep {c : Context} (hin : InStep host c.conn.log c.conn.decodingTable)
    (hassembled : c.stream.Assembled key c.conn.log) : Session.Accepted (blockLedger host) key c :=
  ⟨hin, hassembled, fun _ => ⟨hin.append rfl rfl,
    hassembled.of_opened (congrArg (Assembly.opened · key) (assemble_append _))⟩⟩

/-- What a stream makes of a frame. -/
theorem Stream.receive_inStep {c : Context} (hin : InStep host log c.conn.decodingTable)
    (hlog : c.conn.log = log ++ [.received header (c.conn.reader.viewed header.length)])
    (hid : header.streamId = c.stream.id) (hassembled : c.stream.Assembled header.streamId log)
    (hclosed : header.type = .headers → c.stream.state ≠ .halfClosedRemote)
    (hpayload : header.type.isFragment = true → ∀ payload, header.fragment payload = payload)
    (hrefusal : header.type.isFragment = true → header.has Flags.endHeaders = true →
      let block := c.stream.block.getD [] ++ c.conn.reader.rest.take header.length
      ∀ id code, refusal c.stream.id block (feed host.hit host.width block c.conn.decodingTable) ≠
        some (.streamError id code)) :
    (receive host header c).Ends (Session.Accepted (blockLedger host) header.streamId)
      (Session.Refused (blockLedger host) (fun _ => True) header.streamId) := by
  rw [hid] at hassembled ⊢
  cases hfragment : header.type.isFragment with
  | false =>
    have hsame := (receive_touches host header c).others hfragment
    have hquiet : assemble c.conn.log = assemble log := by
      rw [hlog, assemble_append]
      simp only [Assembly.step, hfragment, Bool.false_eq_true, if_false]
    have hinAfter : InStep host (receive host header c).state.conn.log
        (receive host header c).state.conn.decodingTable := by
      rw [hsame.log, hsame.table, hlog]
      refine hin.append ?_ rfl
      rw [← assemble_append, ← hlog, hquiet]
    refine Outcome.ends_iff.2 ⟨fun _ => accepted_of_inStep hinAfter ?_,
      fun _ _ => ⟨⟨⟩, fun _ _ => hinAfter⟩⟩
    refine (hassembled.sameBlock hsame).of_opened ?_
    rw [hsame.log, hquiet]
  | true =>
    have hhandle : handle host header = handleFragment host header := by
      unfold handle
      obtain htype | htype | htype := FrameType.isFragment_iff.1 hfragment <;> rw [htype]
    have hdone : (receive host header c).Ends (Session.Accepted (blockLedger host) c.stream.id)
        fun _ _ => True := by
      refine receive_ends ⟨⟩ (fun _ _ => ⟨⟩) fun state _ _ => ?_
      rw [hhandle]
      refine (handleFragment_inStep (c := { c with stream := { c.stream with state } }) hin hlog hid
        ⟨hassembled.block, hassembled.trailers⟩ hfragment (hpayload hfragment)).mono ?_
        fun _ _ h => h
      rintro d ⟨hd, hassembledAfter⟩
      exact accepted_of_inStep hd ⟨hassembledAfter.block, hassembledAfter.trailers⟩
    refine (hdone.and (receive_cause host header c)).mono (fun _ h => h.1) ?_
    rintro e d ⟨-, hcause⟩
    refine ⟨⟨⟩, fun code hthrown => ?_⟩
    have hne : ∀ {type}, header.type = type → type.isFragment = false → False := by
      rintro type rfl hother
      rw [hother] at hfragment
      cases hfragment
    cases hcause with
    | connection | ahead | headers => cases hthrown
    | closed _ hstate htype =>
      -- a block on a stream that the peer has closed would be dropped here
      obtain htype | htype := htype
      · exact (hne htype rfl).elim
      · exact absurd hstate (hclosed htype)
    | refused _ hend h => exact absurd (hthrown ▸ h) (hrefusal hfragment hend _ code)
    | connWindow htype | window htype | raised htype | reset _ htype => exact (hne htype rfl).elim

/-- As long as the fragments are legible and the connection is running, every complete header block
that was received went to the decoder once, in its turn and to its end. -/
theorem inStep_of_legible {t : Session} (h : (server host).Run (LegibleStep host) {} t)
    (hrunning : t.status = .running) : InStep host t.conn.log t.conn.decodingTable := by
  refine ((holds_of_run (D := fun _ => True) (blockLedger_lawful host) h (fun _ _ _ => ⟨⟩)
    (fun _ _ _ => ⟨⟩) ⟨rfl, rfl⟩ (fun _ => rfl) fun s bytes header t hok hst hupcoming ht => ?_).1
    hrunning).shared
  have hlegible := hok header _ hupcoming
  refine Session.handleFrame_holds (blockLedger_lawful host) (fun _ _ _ => ⟨⟩) ht ⟨⟩
    (fun _ hfragment => ?_)
    fun stream hstream hid => ?_
  · refine ht.shared.append ?_ rfl
    simp only [Assembly.step, hfragment, Bool.false_eq_true, if_false]
  · have hknown := ht.slots header.streamId hid hid
    obtain ⟨window, htarget⟩ := Session.exists_target_of_headed hst header.streamId
    have hformed : stream = t.target header.streamId ∧ header.streamId = stream.id ∧
        stream.Assembled header.streamId t.conn.log := by
      obtain hslot | ⟨hnone, rfl⟩ := hstream
      · rw [hslot] at hknown
        exact ⟨by rw [Session.target, hslot], (ht.streams _ _ hslot).id.symm, hknown⟩
      · rw [hnone] at hknown
        exact ⟨by rw [Session.target, hnone], rfl, congrArg some (Eq.symm hknown), fun _ => rfl⟩
    obtain ⟨rfl, hidEq, hassembled⟩ := hformed
    refine Stream.receive_inStep ht.shared rfl hidEq hassembled (fun htype => ?_)
      (fun hfragment payload => ?_) fun hfragment hend => ?_
    · have hstate := (hlegible hid (by rw [htype]; rfl)).closed htype
      rwa [htarget] at hstate
    · unfold FrameHeader.fragment
      split
      · rename_i htype
        obtain ⟨hpadded, hpriority⟩ := ((hlegible hid hfragment).plain) htype
        simp [FrameHeader.unpadded, hpadded, hpriority]
      · rename_i htype
        exact absurd htype ((hlegible hid hfragment).promise)
      · rfl
    · have hblock := (hlegible hid hfragment).block hend
      rwa [htarget, ← hst.decodingTable] at hblock

theorem inStep_of_legible_request : ∃ t, (server keepingHost).Run (LegibleStep keepingHost) {} t ∧
    t.status = .running ∧ fedBlocks t.conn.log = [(1, [0x82])] ∧
    InStep keepingHost t.conn.log t.conn.decodingTable := by
  obtain ⟨t, hnext, hrunning, hfed⟩ : ∃ t,
      (server keepingHost).next (.read smallRequest) {} = some t ∧ t.status = .running ∧
        fedBlocks t.conn.log = [(1, [0x82])] := System.exists_of_any (by decide +kernel)
  have hupcoming : (Session.pushBack smallRequest {}).upcoming =
      some (⟨1, .headers, 5, 1⟩, [0x82]) := by decide +kernel
  have hblock : refusal 1 [0x82] (feed keepingHost.hit keepingHost.width [0x82] {}) = none := by
    decide +kernel
  have hrun : (server keepingHost).Run (LegibleStep keepingHost) {} t := by
    refine .tail .refl (fun header rest h _ _ => ?_) hnext
    rw [hupcoming] at h
    cases h
    refine ⟨nofun, fun _ => ⟨rfl, rfl⟩, fun _ => nofun, fun _ id code hrefused => ?_⟩
    exact absurd (hblock.symm.trans hrefused) nofun
  exact ⟨t, hrun, hrunning, hfed, inStep_of_legible hrun hrunning⟩

/-- A request, and then a header block on its stream that adds `a: b` to the table. -/
def requestAndBlock : List Label :=
  [.read smallRequest,
    .read (Frame.write { type := .headers, flags := Flags.endHeaders, streamId := 1
                         payload := [0x40, 0x01, 0x61, 0x01, 0x62] })]

/-- A header block on a stream that the peer has closed is not decoded, and the connection goes
on. -/
theorem block_skipped : ∃ t, (server keepingHost).Run System.Any {} t ∧
    t.status = .running ∧ fedBlocks t.conn.log = [(1, [0x82])] ∧
    (assemble t.conn.log).complete = [(1, [0x82]), (1, [0x40, 0x01, 0x61, 0x01, 0x62])] ∧
    ¬InStep keepingHost t.conn.log t.conn.decodingTable := by
  obtain ⟨t, hrun, hrunning, hfed, hcomplete⟩ : ∃ t,
      (server keepingHost).Run System.Any {} t ∧ t.status = .running ∧
        fedBlocks t.conn.log = [(1, [0x82])] ∧ (assemble t.conn.log).complete =
          [(1, [0x82]), (1, [0x40, 0x01, 0x61, 0x01, 0x62])] :=
    (server keepingHost).exists_run requestAndBlock (by decide +kernel)
  refine ⟨t, hrun, hrunning, hfed, hcomplete, fun h => ?_⟩
  have hsame := h.fed
  rw [hfed, hcomplete] at hsame
  cases hsame

end Congelado.Http2
