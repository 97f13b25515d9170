import Congelado.Codec.Lockstep

/-!
# Blocks that come back

What the decoder hands over for a block is what the encoder was given, with the cookies in crumbs
(`exchange_of_conveyed`), under conditions that the code does not check. A field that is to be
stored and does not fit in the table is not handed over at all, since the decoder hands over what
is in the table then (`oversized_field_lost`). A size update must not raise the maximum, which the
decoder compares with the one before and not with the one that was agreed on. And the searches of
the encoder have to be right, for which there is `DynamicTable.Searchable`.
-/

namespace Congelado.Codec

open HpackEncoder DynamicTable List Fallible

variable {piece : Piece}

/-! ### Sending and receiving -/

def Piece.headers : Piece → List HeaderEntry
  | resize _ => []
  | field name value _ => [⟨.text name, value⟩]

/-- What is to come back: the headers, each cookie as its crumbs. -/
def Block.expected (block : Block) : List HeaderEntry :=
  block.headers.flatMap fun entry =>
    if entry.name = .token .cookie then
      (crumbs entry.value).map fun crumb => ⟨.text (text "cookie"), crumb⟩
    else [entry.plain]

/-- Each block is encoded and decoded before the next one. -/
def exchange (sender receiver : Layout) (W : ℕ) :
    List Block → HPackTable → HPackTable → Except CodecError (List (List HeaderEntry))
  | [], _, _ => .ok []
  | block :: blocks, encoder, decoder => do
    let (bytes, encoder) ← sendBlock sender block encoder
    let (headers, decoder) ← HpackDecoder.decode receiver W bytes decoder
    let rest ← exchange sender receiver W blocks encoder decoder
    return headers.map HeaderEntry.plain :: rest

theorem Block.expected_eq (block : Block) :
    block.expected = block.pieces.flatMap Piece.headers := by
  have hresize : (block.updates.map Piece.resize).flatMap Piece.headers = [] := by
    rw [flatMap_map]
    exact flatMap_eq_nil_iff.2 fun _ _ => rfl
  rw [Block.pieces, flatMap_append, hresize, nil_append, flatMap_assoc, Block.expected]
  refine congrArg (block.headers.flatMap ·) (funext fun entry => ?_)
  rw [fieldsOf]
  split
  · rw [flatMap_map, map_eq_flatMap]
    rfl
  · rfl

/-! ### What a search finds -/

section Search

variable {hit : Layout} {table : HPackTable} {position : ℕ}

/-- Every row of the static index is about the entry at its position. -/
theorem staticMap_covers : ∀ row ∈ staticMap.rows,
    staticTable[row.2]?.any (fun entry => row.1.Covers entry) = true := by
  decide +kernel

theorem exists_static {query : HeaderKey} (h : Index.find hit staticMap query = some position) :
    ∃ entry, staticTable[position]? = some entry ∧ query.Covers entry.plain := by
  obtain ⟨row, hrow, rfl⟩ := Option.map_eq_some_iff.1 h
  obtain ⟨hmem, hplain, -⟩ := Index.leads_of_lookup hrow
  obtain ⟨entry, hentry, hcovers⟩ := (Option.any_eq_true _ _).1 (staticMap_covers row hmem)
  exact ⟨entry, hentry, hplain ▸ (of_decide_eq_true hcovers).plain⟩

theorem entry?_static (h : position < staticSize) :
    table.entry? (position + 1) = staticTable[position]? := by
  rw [HPackTable.entry?, if_neg (Nat.succ_ne_zero _), if_pos (Nat.succ_le_of_lt h),
    Nat.add_sub_cancel]

theorem entry?_dynamic (position : ℕ) :
    table.entry? (position + staticSize + 1) = table.deque[position]? := by
  rw [HPackTable.entry?, if_neg (Nat.succ_ne_zero _), if_neg (by omega), atPosition,
    Nat.sub_sub, Nat.add_assoc, Nat.add_sub_cancel]

/-- What a search may find: an index of the field, or of its name. If the name is not a static one
then it is that of an entry that has it as a string. -/
inductive Finding (hit : Layout) (table : HPackTable) (name value : Text) : SearchResult → Prop
  | full {idx : ℕ} {entry : HeaderEntry} (hidx : 0 < idx ∧ idx < 2 ^ 32)
    (hentry : table.entry? idx = some entry) (hplain : entry.plain = ⟨.text name, value⟩) :
    Finding hit table name value (.make idx true true)
  | name {idx : ℕ} {entry : HeaderEntry} (hidx : 0 < idx ∧ idx < 2 ^ 32)
    (hentry : table.entry? idx = some entry) (hplain : entry.name.plain = .text name)
    (hstring : Index.find hit staticMap (.nameOnly (.text name)) = none →
      entry.name = .text name) :
    Finding hit table name value (.make idx true false)
  | none : Finding hit table name value .none

/-- With the index right, a search finds what is there. -/
theorem DynamicTable.Indexed.finding (h : Indexed table)
    (hlen : table.deque.length + staticSize < 2 ^ 32) (name value : Text) :
    Finding hit table name value (table.search hit name value) := by
  have hcomes := HPackTable.search_comes hit table name value
  generalize table.search hit name value = result at hcomes ⊢
  cases hcomes with
  | @static isFull position hfind =>
    have hlt := find_staticMap_lt hfind
    have hidx : 0 < position + 1 ∧ position + 1 < 2 ^ 32 := by
      rw [staticSize] at hlt
      omega
    obtain ⟨entry, hentry, hcovers⟩ := exists_static hfind
    cases isFull with
    | true => exact .full hidx ((entry?_static hlt).trans hentry) (by rw [← hcovers.1, ← hcovers.2])
    | false =>
      refine .name hidx ((entry?_static hlt).trans hentry) hcovers fun hnone => ?_
      exact absurd (hfind.symm.trans hnone) (Option.some_ne_none _)
  | dynamic isFull hfind =>
    rw [h.find] at hfind
    obtain ⟨position, hpos, rfl⟩ := Option.map_eq_some_iff.1 hfind
    obtain ⟨entry, hentry, hcovers⟩ := HeaderKey.exists_of_position hpos
    have hlt := (List.getElem?_eq_some_iff.1 hentry).1
    rw [reported, h.generationToPosition hlt, SearchResult.index_make (by omega)]
    cases isFull with
    | true =>
      refine .full (by omega) ((entry?_dynamic position).trans hentry) ?_
      rw [HeaderEntry.plain, hcovers.1, hcovers.2, FieldName.plain_text]
    | false =>
      refine .name (by omega) ((entry?_dynamic position).trans hentry) ?_ fun _ => hcovers
      rw [show entry.name = .text name from hcovers, FieldName.plain_text]
  | none => exact .none

end Search

/-! ### Fields that come back -/

/-- The encoder's table has its size and its index right. -/
structure Good (table : HPackTable) : Prop where
  tallied : Tallied table
  indexed : Indexed table

/-- A field that is stored, if no table has it, is one of a name that is not found among the static
ones, so that it is stored as a string, and there is room for it. -/
def Keepable (hit : Layout) (table : HPackTable) (name value : Text) : Prop :=
  (table.search hit name value).isFullMatch = false →
    Index.find hit staticMap (.nameOnly (.text name)) = none ∧
      (⟨.text name, value⟩ : HeaderEntry).size ≤ table.maxSize ∧
      Searchable table (.insert .hPack ⟨.text name, value⟩)

/-- The decoder gets the piece back. -/
def Conveyable (hit : Layout) (table : HPackTable) : Piece → Prop
  | .resize size => size.toNat ≤ table.maxSize ∧ Unshadowed size.toNat table.deque
  | .field name value policy =>
    (name ≠ [] ∧ name.length ≤ 65536 ∧ value.length ≤ 65536) ∧
      table.deque.length + staticSize < 2 ^ 32 ∧
      (policy = .withIndexing → Keepable hit table name value)

instance (hit : Layout) (table : HPackTable) (name value : Text) :
    Decidable (Keepable hit table name value) :=
  inferInstanceAs (Decidable (_ → _))

instance (hit : Layout) (table : HPackTable) : (piece : Piece) →
    Decidable (Conveyable hit table piece)
  | .resize _ => inferInstanceAs (Decidable (_ ∧ _))
  | .field _ _ _ => inferInstanceAs (Decidable (_ ∧ _))

theorem Conveyable.framed {hit : Layout} {table : HPackTable}
    (h : Conveyable hit table piece) : Framed table piece := by
  cases piece with
  | resize size => trivial
  | field name value policy =>
    obtain ⟨⟨-, hname, hvalue⟩, hlen, -⟩ := h
    exact ⟨⟨by omega, by omega⟩, hlen⟩

section Convey

variable {sender receiver : Layout} {a b : HPackTable} {name value : Text} {idx : ℕ}
    {entry : HeaderEntry} {policy : EncodePolicy}

/-- A field with room for it goes to the front of the encoder's table. -/
theorem Good.exists_insert (h : Good a) (hname : name ≠ [])
    (hsize : (⟨.text name, value⟩ : HeaderEntry).size ≤ a.maxSize)
    (hop : Searchable a (.insert .hPack ⟨.text name, value⟩)) :
    ∃ a', a.insert sender (.text name) value = .ok (0, a') ∧ Good a' ∧
      a'.deque[0]? = some ⟨.text name, value⟩ := by
  have hempty : FieldName.text name ≠ .text [] := by simpa using hname
  have hnext : (system sender).next (.insert .hPack ⟨.text name, value⟩) a =
      some (DynamicTable.insert sender .hPack ⟨.text name, value⟩ a).2 := rfl
  have htallied := (step_tallied hop.counted h.tallied hnext).1
  have hindexed := step_indexed hop h.tallied h.indexed hnext
  have hfront : (DynamicTable.insert sender .hPack ⟨.text name, value⟩ a).2.deque[0]? =
      some ⟨.text name, value⟩ := by
    rw [insert_of_le .hPack hsize hempty]
    rfl
  have hposition : (DynamicTable.insert sender .hPack ⟨.text name, value⟩ a).1 = _ :=
    insert_position hsize hempty
  rw [← Nat.sub_zero (DynamicTable.insert sender .hPack _ a).2.generation,
    hindexed.generationToPosition (List.getElem?_eq_some_iff.mp hfront).1] at hposition
  exact ⟨_, HPackTable.insert_eq_ok_iff.mpr ⟨hempty, Prod.ext hposition rfl⟩,
    ⟨htallied, hindexed⟩, hfront⟩

/-- The decoder stores it too, and hands over what it has stored. -/
theorem Lockstep.exists_inserted (h : Lockstep a b) {a' : HPackTable}
    (hinsert : a.insert sender (.text name) value = .ok (0, a'))
    (hfront : a'.deque[0]? = some ⟨.text name, value⟩) :
    ∃ b', HpackDecoder.inserted receiver (.text name) value b =
      .ok ([⟨.text name, value⟩], b') ∧ Lockstep a' b' := by
  obtain ⟨b', hb, hlock⟩ : ∃ b', b.insert receiver (.text name) value = .ok (0, b') ∧ _ :=
    h.exists_insert hinsert
  refine ⟨b', ?_, hlock⟩
  have hentry : b'.entry? ((staticSize + 1 + 0) % 2 ^ 64) = some ⟨.text name, value⟩ := by
    rw [← hlock.entry?]
    exact (entry?_dynamic 0).trans hfront
  rw [HpackDecoder.inserted, hb]
  simp only [ok_bind, hentry]
  rfl

theorem entry_of_entry? {table : HPackTable}
    (h : table.entry? idx = some entry) : table.entry idx = .ok entry := by
  rw [HPackTable.entry, h]

theorem accept_of_le {value : Text} (h : value.length ≤ 65536) : accept value = .ok value :=
  if_neg (not_lt.2 h)

/-- What becomes of one representation: both sides go on with equal tables, and the decoder has the
headers. -/
def Conveys (sender receiver : Layout) (a b : HPackTable) (rep : Representation)
    (headers : List HeaderEntry) : Prop :=
  ∃ a' b' got, rep.record sender a = .ok a' ∧ rep.perform receiver b = .ok (got, b') ∧
    got.map HeaderEntry.plain = headers ∧ Lockstep a' b' ∧ Good a'

section

variable (h : Good a)

include h

section

variable (hlock : Lockstep a b)

include hlock

theorem conveys_indexed (hidx : 0 < idx) (hentry : a.entry? idx = some entry)
    (hplain : entry.plain = ⟨.text name, value⟩) :
    Conveys sender receiver a b (.indexed idx) [⟨.text name, value⟩] := by
  refine ⟨a, b, [entry.plain], rfl, ?_, ?_, hlock, h⟩
  · rw [Representation.perform, if_neg hidx.ne', ← hlock.entry, entry_of_entry? hentry]
    rfl
  · rw [map_singleton, hplain, HeaderEntry.plain, FieldName.plain_text]

theorem conveys_named (hpolicy : policy ≠ .withIndexing) (hidx : 0 < idx)
    (hentry : a.entry? idx = some entry) (hplain : entry.name.plain = .text name)
    (hvalue : value.length ≤ 65536) :
    Conveys sender receiver a b (.named policy idx value) [⟨.text name, value⟩] := by
  refine ⟨a, b, [⟨entry.name, value⟩], (Representation.record_of_ne hpolicy).1 idx value, ?_, ?_,
    hlock, h⟩
  · rw [Representation.perform, accept_of_le hvalue, ok_bind, HpackDecoder.pushHelper,
      if_neg hidx.ne', ← hlock.entry, entry_of_entry? hentry, ok_bind,
      EncodePolicy.indexable_eq_false hpolicy]
    rfl
  · rw [map_singleton, HeaderEntry.plain, hplain]

/-- Both sides store the field. -/
theorem conveys_stored {rep : Representation} (hname : name ≠ [])
    (hsize : (⟨.text name, value⟩ : HeaderEntry).size ≤ a.maxSize)
    (hop : Searchable a (.insert .hPack ⟨.text name, value⟩))
    (hrecord : ∀ a', a.insert sender (.text name) value = .ok (0, a') →
      rep.record sender a = .ok a')
    (hperform : rep.perform receiver b = HpackDecoder.inserted receiver (.text name) value b) :
    Conveys sender receiver a b rep [⟨.text name, value⟩] := by
  obtain ⟨a', hinsert, hgood, hfront⟩ :
      ∃ a', a.insert sender (.text name) value = .ok (0, a') ∧ _ :=
    h.exists_insert hname hsize hop
  obtain ⟨b', hinserted, hlock'⟩ :
      ∃ b', HpackDecoder.inserted receiver (.text name) value b = .ok (_, b') ∧ _ :=
    hlock.exists_inserted hinsert hfront
  exact ⟨a', b', [⟨.text name, value⟩], hrecord a' hinsert, hperform.trans hinserted, rfl, hlock',
    hgood⟩

theorem conveys_fresh
    (hpolicy : policy ≠ .withIndexing) (hname : name ≠ []) (hnameLen : name.length ≤ 65536)
    (hvalue : value.length ≤ 65536) :
    Conveys sender receiver a b (.fresh policy name value) [⟨.text name, value⟩] := by
  refine ⟨a, b, [⟨.text name, value⟩], (Representation.record_of_ne hpolicy).2 name value, ?_, rfl,
    hlock, h⟩
  rw [Representation.perform, accept_of_le hnameLen, ok_bind, accept_of_le hvalue, ok_bind,
    HpackDecoder.pushHelperNew, if_neg hname, EncodePolicy.indexable_eq_false hpolicy]
  rfl

/-- A field comes back, however it is represented. -/
theorem conveys_field (hconvey : Conveyable sender a (.field name value policy)) :
    Conveys sender receiver a b (represent name value policy (a.search sender name value))
      [⟨.text name, value⟩] := by
  obtain ⟨⟨hname, hnameLen, hvalue⟩, hlen, hkeep⟩ := hconvey
  have hfinding : Finding sender a name value (a.search sender name value) :=
    h.indexed.finding hlen name value
  unfold Keepable at hkeep
  generalize a.search sender name value = result at hfinding hkeep ⊢
  cases hfinding with
  | @full idx entry hidx hentry hplain =>
    have hsmall : idx < 2 ^ 62 - 1 := hidx.2.trans (by decide)
    rw [represent, SearchResult.index_make (by omega), Nat.mod_eq_of_lt hidx.2,
      SearchResult.isFullMatch_make hsmall, SearchResult.found_make hsmall]
    by_cases hpolicy : policy = .withIndexing
    · rw [if_pos ⟨hpolicy, rfl⟩]
      exact conveys_indexed h hlock hidx.1 hentry hplain
    · rw [if_neg (fun hboth => hpolicy hboth.1), if_pos rfl]
      exact conveys_named h hlock hpolicy hidx.1 hentry (congrArg HeaderEntry.name hplain) hvalue
  | @name idx entry hidx hentry hplain hstring =>
    have hsmall : idx < 2 ^ 62 - 1 := hidx.2.trans (by decide)
    have hnameOnly : (SearchResult.make idx true false).isFullMatch = false :=
      SearchResult.isFullMatch_make hsmall true false
    rw [represent, SearchResult.index_make (by omega), Nat.mod_eq_of_lt hidx.2, hnameOnly,
      SearchResult.found_make hsmall, if_neg (fun hboth => Bool.false_ne_true hboth.2), if_pos rfl]
    -- both sides store the name of the entry that was found
    by_cases hpolicy : policy = .withIndexing
    · obtain ⟨hstatic, hsize, hop⟩ := hkeep hpolicy hnameOnly
      rw [hpolicy]
      refine conveys_stored h hlock hname hsize hop (fun a' hinsert => ?_) ?_
      · rw [Representation.record, entry_of_entry? hentry, ok_bind, hstring hstatic, hinsert]
        rfl
      · rw [Representation.perform, accept_of_le hvalue, ok_bind, HpackDecoder.pushHelper,
          if_neg hidx.1.ne', ← hlock.entry, entry_of_entry? hentry, ok_bind, hstring hstatic]
        rfl
    · exact conveys_named h hlock hpolicy hidx.1 hentry hplain hvalue
  | none =>
    have hrep : represent name value policy .none = .fresh policy name value := by
      rw [represent, if_neg (fun hboth => absurd hboth.2 (by decide)), if_neg (by decide)]
    rw [hrep]
    by_cases hpolicy : policy = .withIndexing
    · obtain ⟨-, hsize, hop⟩ := hkeep hpolicy (by decide)
      rw [hpolicy]
      refine conveys_stored h hlock hname hsize hop (fun a' hinsert => ?_) ?_
      · rw [Representation.record, hinsert]
        rfl
      · rw [Representation.perform, accept_of_le hnameLen, ok_bind, accept_of_le hvalue, ok_bind,
          HpackDecoder.pushHelperNew, if_neg hname]
        rfl
    · exact conveys_fresh h hlock hpolicy hname hnameLen hvalue

/-- A size update that does not raise the maximum is accepted. -/
theorem conveys_resize {size : UInt32} (hconvey : Conveyable sender a (.resize size)) :
    Conveys sender receiver a b (.resize size.toNat) [] := by
  obtain ⟨hle, hshadow⟩ := hconvey
  refine ⟨setMaxSize sender size.toNat a, setMaxSize receiver size.toNat b, [], rfl, ?_, rfl,
    hlock.setMaxSize _, (h.tallied.setMaxSize sender _).1, h.indexed.setMaxSize h.tallied hshadow⟩
  rw [Representation.perform, if_neg (not_lt.2 (hle.trans_eq hlock.maxSize))]

theorem conveys_piece (hconvey : Conveyable sender a piece) :
    Conveys sender receiver a b (piece.represent sender a) piece.headers := by
  cases piece with
  | resize size => exact conveys_resize h hlock hconvey
  | field name value policy => exact conveys_field h hlock hconvey

/-- The pieces one after the other. -/
theorem conveys_pieces {pieces : List Piece} (hconvey : Along sender (Conveyable sender) pieces a) :
    ∃ bytes reps a' b' got, encodeEach (Piece.encode sender) pieces a = .ok (bytes, a') ∧
      Written reps bytes ∧ performAll receiver b reps = .ok (got, b') ∧
      got.map HeaderEntry.plain = pieces.flatMap Piece.headers ∧ Lockstep a' b' ∧ Good a' := by
  induction pieces generalizing a b with
  | nil => exact ⟨[], [], a, b, [], rfl, .nil, rfl, rfl, hlock, h⟩
  | cons piece pieces ih =>
    obtain ⟨hpiece, hrest⟩ := hconvey
    have hword : a.generation < 2 ^ 64 := h.indexed.bound.trans (by decide)
    have hframed : (piece.represent sender a).Framed := hpiece.framed.represent hword
    obtain ⟨first, tail, hbytes, -⟩ := exists_write _ hframed
    obtain ⟨a₁, b₁, got, hrecord, hperform, hgot, hlock₁, hgood₁⟩ :
        Conveys sender receiver a b _ _ := conveys_piece h hlock hpiece
    have hencode : piece.encode sender a = .ok (first :: tail, a₁) := by
      rw [Piece.encode, hbytes, ok_bind, hrecord]
      rfl
    obtain ⟨bytes, reps, a', b', others, hencodes, hwritten, hperforms, hothers, hlock', hgood'⟩ :=
      ih hgood₁ hlock₁ (hrest _ _ hencode)
    refine ⟨first :: tail ++ bytes, piece.represent sender a :: reps, a', b', got ++ others, ?_,
      .cons hframed hbytes hwritten, performAll_cons hperform hperforms, ?_, hlock', hgood'⟩
    · rw [encodeEach, hencode]
      simp only [ok_bind, hencodes]
      rfl
    · rw [map_append, hgot, hothers, flatMap_cons]

end

end

end Convey

/-! ### Sequences of blocks -/

/-- A condition on each block and the table it is encoded with. -/
def Conveyed (hit : Layout) : List Block → HPackTable → Prop
  | [], _ => True
  | block :: blocks, table =>
    Along hit (Conveyable hit) block.pieces table ∧
      ∀ bytes table', sendBlock hit block table = .ok (bytes, table') → Conveyed hit blocks table'

instance Conveyed.decidable (hit : Layout) :
    (blocks : List Block) → (table : HPackTable) → Decidable (Conveyed hit blocks table)
  | [], _ => isTrue trivial
  | block :: blocks, table =>
    match h : sendBlock hit block table with
    | .error _ => decidable_of_iff (Along hit (Conveyable hit) block.pieces table)
        (by simp [Conveyed, h])
    | .ok (_, table') =>
      haveI := Conveyed.decidable hit blocks table'
      decidable_of_iff (Along hit (Conveyable hit) block.pieces table ∧ Conveyed hit blocks table')
        (by simp [Conveyed, h])

theorem good_new (budget : ℕ) : Good { maxSize := budget } where
  tallied := ⟨rfl, Nat.two_pow_pos 64⟩
  indexed := ⟨nofun, fun _ => rfl, Nat.zero_le _, show 0 < 2 ^ 62 - 1 by decide⟩

/-- Blocks of which each field fits, and each size update is accepted, come back one by one. -/
theorem exchange_of_conveyed (sender receiver : Layout) (W : ℕ) (blocks : List Block)
    (encoder decoder : HPackTable) (hgood : Good encoder) (hlock : Lockstep encoder decoder)
    (hconvey : Conveyed sender blocks encoder) :
    exchange sender receiver W blocks encoder decoder = .ok (blocks.map Block.expected) := by
  induction blocks generalizing encoder decoder with
  | nil => rfl
  | cons block blocks ih =>
    obtain ⟨hblock, hrest⟩ := hconvey
    obtain ⟨bytes, reps, encoder', decoder', got, hencode, hwritten, hperform, hgot, hlock',
      hgood'⟩ := conveys_pieces hgood hlock hblock
    rw [← sendBlock_eq] at hencode
    have hdecode : HpackDecoder.decode receiver W bytes decoder = .ok (got, decoder') := by
      rw [hwritten.decode, hperform]
    rw [exchange, hencode]
    simp only [ok_bind, hdecode, ih encoder' decoder' hgood' hlock' (hrest _ _ hencode), hgot,
      ← Block.expected_eq]
    rfl

/-- A header that is sent again after the table is resized, a cookie and a secret. -/
theorem exchange_of_conveyed_two :
    let agent : HeaderEntry := ⟨.token .userAgent, text "x"⟩
    let secret : HeaderEntry := ⟨.token .authorization, text "y"⟩
    let cookie : HeaderEntry := ⟨.token .cookie, text "a=1; b=2"⟩
    let blocks : List Block :=
      [{ headers := [agent, secret] }, { updates := [200], headers := [agent, cookie] }]
    exchange (fun _ _ => false) (fun _ _ => false) 4 blocks {} {} =
      .ok [[agent.plain, secret.plain],
        [agent.plain, ⟨.text (text "cookie"), text "a=1"⟩, ⟨.text (text "cookie"), text "b=2"⟩]] :=
  exchange_of_conveyed (fun _ _ => false) (fun _ _ => false) 4 _ {} {} (good_new 4096)
    ⟨rfl, rfl, rfl, rfl⟩ (by decide +kernel)

/-- A field of 35 bytes does not fit in a table of 34, and does not come back. -/
theorem oversized_field_lost :
    ¬∀ (sender receiver : Layout) (W : ℕ) (blocks : List Block) (table : HPackTable),
      (∀ block ∈ blocks, ∀ entry ∈ block.headers,
        entry.name.wire ≠ [] ∧ entry.name.wire.length ≤ 65536 ∧ entry.value.length ≤ 65536) →
      exchange sender receiver W blocks table table = .ok (blocks.map Block.expected) := by
  intro h
  have hlost := h (fun _ _ => false) (fun _ _ => false) 4
    [{ headers := [⟨.text (text "a"), text "bc"⟩] }] { maxSize := 34 } (by decide)
  exact absurd hlost (by decide +kernel)

end Congelado.Codec
