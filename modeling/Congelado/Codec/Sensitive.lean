import Congelado.Codec.RoundTrip

/-!
# Sensitive fields

`policy_for` says which fields must not be stored by a table. Here is that a block under the
automatic policy without cookies keeps to it (`discreet_of_crumbless`): what a search finds for
another name is never the entry of a sensitive one (`Discreet.search`), so that neither side stores
a sensitive field, from a literal or behind an index.

The crumbs of a cookie go past `policy_for`, with indexing (`crumb_stored`).
-/

namespace Congelado.Codec

open HpackEncoder Fallible

variable {position : ℕ}

/-- The name of a field that must not be stored. -/
def Sensitive (name : Text) : Prop := policyFor name = .neverIndexed

instance (name : Text) : Decidable (Sensitive name) := inferInstanceAs (Decidable (_ = _))

instance (table : HPackTable) : (piece : Piece) → Decidable (Framed table piece)
  | .resize _ => isTrue trivial
  | .field _ _ _ => inferInstanceAs (Decidable (_ ∧ _))

variable (table : HPackTable)

/-- No entry of the table is sensitive. -/
def Discreet : Prop := ∀ entry ∈ table.deque, ¬Sensitive entry.name.wire

/-- A literal with incremental indexing. -/
def Representation.Incremental : Representation → Prop
  | .named policy _ _ => policy = .withIndexing
  | .fresh policy _ _ => policy = .withIndexing
  | _ => False

/-- What is stored for a representation, if anything, is not sensitive. -/
def Representation.Modest : Representation → Prop
  | .named policy idx _ => policy = .withIndexing →
      ∀ entry, table.entry idx = .ok entry → ¬Sensitive entry.name.wire
  | .fresh policy name _ => policy = .withIndexing → ¬Sensitive name
  | _ => True

/-- The piece is written so that neither side stores anything sensitive, and if it is sensitive
itself, without indexing. -/
structure Guarded (hit : Layout) (table : HPackTable) (piece : Piece) : Prop where
  discreet : Discreet table
  modest : (piece.represent hit table).Modest table
  literal : ∀ name value policy, piece = .field name value policy → Sensitive name →
    ¬(piece.represent hit table).Incremental

/-- There are no crumbs of cookies. -/
def Block.Crumbless (block : Block) : Prop :=
  ∀ entry ∈ block.headers, entry.name = .token .cookie → crumbs entry.value = []

/-! ### What is stored -/

section Stored

variable {hit : Layout} {table table' : HPackTable}

theorem Discreet.evictWhile {full : DynamicTable → Bool} (h : Discreet table) (fuel : ℕ) :
    Discreet (DynamicTable.evictWhile hit full fuel table) :=
  fun entry hentry => h entry ((DynamicTable.evictWhile_kept ..).1.subset hentry)

theorem Discreet.insert (h : Discreet table) {name : FieldName} {value : Text}
    (hname : ¬Sensitive name.wire)
    (hinsert : table.insert hit name value = .ok (position, table')) : Discreet table' := by
  obtain ⟨hne, hfield⟩ := HPackTable.insert_eq_ok_iff.1 hinsert
  obtain rfl : (DynamicTable.insert hit .hPack ⟨name, value⟩ table).2 = table' :=
    congrArg Prod.snd hfield
  by_cases hover : table.maxSize < HeaderEntry.size ⟨name, value⟩
  · rw [DynamicTable.insert, if_pos hover]
    intro entry hentry
    cases hentry
  · rw [DynamicTable.insert_of_le .hPack (not_lt.1 hover) hne]
    rintro entry (_ | ⟨_, hentry⟩)
    · exact hname
    · exact h.evictWhile _ entry hentry

theorem Discreet.record (h : Discreet table) {rep : Representation} (hrep : rep.Modest table)
    (hrecord : rep.record hit table = .ok table') : Discreet table' := by
  cases rep with
  | indexed idx =>
    cases hrecord
    exact h
  | resize size =>
    cases hrecord
    have hsame : Discreet { table with maxSize := size } := h
    exact hsame.evictWhile _
  | named policy idx value =>
    by_cases hpolicy : policy = .withIndexing
    · have hnames := hrep hpolicy
      subst hpolicy
      obtain ⟨entry, hentry, hinsert⟩ := bind_eq_ok_iff.1 hrecord
      obtain ⟨⟨position, stored⟩, hinsert, hpure⟩ := bind_eq_ok_iff.1 hinsert
      cases hpure
      exact h.insert (hnames entry hentry) hinsert
    · rw [(Representation.record_of_ne hpolicy).1] at hrecord
      cases hrecord
      exact h
  | fresh policy name value =>
    by_cases hpolicy : policy = .withIndexing
    · have hname := hrep hpolicy
      subst hpolicy
      obtain ⟨⟨position, stored⟩, hinsert, hpure⟩ := bind_eq_ok_iff.1 hrecord
      cases hpure
      have hwire : ¬Sensitive (FieldName.text name).wire := hname
      exact h.insert hwire hinsert
    · rw [(Representation.record_of_ne hpolicy).2] at hrecord
      cases hrecord
      exact h

end Stored

/-! ### What is found -/

section Found

variable {hit : Layout} {table : HPackTable} {name value : Text} {entry : HeaderEntry}

/-- The entry a static key leads to has the name of the query. -/
theorem wire_of_static {query : HeaderKey} (hfind : Index.find hit staticMap query = some position)
    (hentry : table.entry? (position + 1) = some entry) :
    FieldName.text entry.name.wire = query.name := by
  rw [entry?_static (find_staticMap_lt hfind)] at hentry
  obtain ⟨entry', hentry', hcovers⟩ := exists_static hfind
  obtain rfl := Option.some.inj (hentry.symm.trans hentry')
  exact hcovers.name_eq

/-- A search in the dynamic table ends at an entry of it, or, if what the index has is gone, at the
last static one, which is not sensitive. -/
theorem Discreet.dynamic (h : Discreet table) (hword : table.generation < 2 ^ 64)
    (hlen : table.deque.length + staticSize < 2 ^ 32) {gen : ℕ} {isFull : Bool}
    (hentry : table.entry? (SearchResult.make ((SearchResult.make (table.reported .hPack gen) true
      isFull).index + staticSize + 1) true isFull).index = some entry) :
    ¬Sensitive entry.name.wire := by
  rw [SearchResult.index_make_mod, SearchResult.index_make_mod, DynamicTable.reported] at hentry
  obtain hlive | hgone := generationToPosition_lt hword (by omega) gen
  · have hindex : (table.generationToPosition gen % 2 ^ 62 + staticSize + 1) % 2 ^ 62 =
        table.generationToPosition gen + staticSize + 1 := by omega
    rw [hindex, entry?_dynamic] at hentry
    exact h entry (List.mem_of_getElem? hentry)
  · rw [hgone] at hentry
    obtain rfl : (⟨.token .wwwAuthenticate, text ""⟩ : HeaderEntry) = entry := by
      rw [show (SearchResult.npos % 2 ^ 62 + staticSize + 1) % 2 ^ 62 = 60 + 1 by decide,
        entry?_static (by decide)] at hentry
      exact Option.some.inj hentry
    decide

/-- What is found for a name that is not sensitive has such a name. -/
theorem Discreet.search (h : Discreet table) (hword : table.generation < 2 ^ 64)
    (hlen : table.deque.length + staticSize < 2 ^ 32) (hname : ¬Sensitive name)
    (hfound : (table.search hit name value).found = true)
    (hentry : table.entry? (table.search hit name value).index = some entry) :
    ¬Sensitive entry.name.wire := by
  have hcomes := HPackTable.search_comes hit table name value
  generalize table.search hit name value = result at hcomes hfound hentry
  cases hcomes with
  | static isFull hfind =>
    have hlt := find_staticMap_lt hfind
    rw [staticSize] at hlt
    rw [SearchResult.index_make (by omega)] at hentry
    have hquery : (HeaderKey.query name value isFull).name = .text name := by cases isFull <;> rfl
    rwa [FieldName.text.inj ((wire_of_static hfind hentry).trans hquery)]
  | dynamic isFull _ => exact h.dynamic hword hlen hentry
  | none => cases hfound

end Found

/-! ### Blocks -/

section Blocks

variable {hit sender receiver : Layout} {W : ℕ} {table table' : HPackTable}

/-- The policy of a piece is the one of its name. -/
def Piece.Policed : Piece → Prop
  | .resize _ => True
  | .field name _ policy => policy = policyFor name

theorem Block.Crumbless.policed {block : Block} (h : block.Crumbless)
    (hauto : block.useAutoPolicy = true) : ∀ piece ∈ block.pieces, piece.Policed := by
  intro piece hpiece
  rw [Block.pieces, List.mem_append, List.mem_map, List.mem_flatMap] at hpiece
  obtain ⟨size, -, rfl⟩ | ⟨entry, hentry, hpiece⟩ := hpiece
  · trivial
  · rw [fieldsOf] at hpiece
    split_ifs at hpiece with hcookie
    · rw [h entry hentry hcookie] at hpiece
      cases hpiece
    · obtain rfl := List.mem_singleton.1 hpiece
      rfl

theorem Guarded.of_policed (h : Discreet table) (hword : table.generation < 2 ^ 64) {piece : Piece}
    (hpoliced : piece.Policed) (hframed : Framed table piece) : Guarded hit table piece := by
  cases piece with
  | resize size => exact ⟨h, trivial, fun _ _ _ hpiece => nomatch hpiece⟩
  | field name value policy =>
    obtain ⟨-, hlen⟩ := hframed
    -- only a name that is not sensitive comes with indexing
    have hpolicy : policy = .withIndexing → ¬Sensitive name := by
      intro hindexing hsensitive
      rw [hpoliced, hsensitive] at hindexing
      cases hindexing
    refine ⟨h, ?_, ?_⟩
    · rw [Piece.represent, Codec.represent]
      split_ifs with hfull hfound
      · trivial
      · intro hindexing entry hentry
        obtain ⟨-, hlt⟩ := index_search_lt hword hlen name value hfound
        rw [Nat.mod_eq_of_lt hlt, HPackTable.entry] at hentry
        split at hentry
        · case h_1 found hfind =>
          cases hentry
          exact h.search hword hlen (hpolicy hindexing) hfound hfind
        · cases hentry
      · exact hpolicy
    · intro name' value' policy' hpiece hsensitive
      cases hpiece
      have hnever : policy ≠ .withIndexing := fun hindexing => hpolicy hindexing hsensitive
      rw [Piece.represent, Codec.represent, if_neg fun hfull => hnever hfull.1]
      split_ifs <;> exact hnever

/-- Piece after piece. -/
theorem Guarded.along (h : Discreet table) (hword : table.generation < 2 ^ 64) {pieces : List Piece}
    (hpoliced : ∀ piece ∈ pieces, piece.Policed) (hframed : Along hit Framed pieces table) :
    Along hit (Guarded hit) pieces table ∧
      ∀ bytes table', encodeEach (Piece.encode hit) pieces table = .ok (bytes, table') →
        Discreet table' := by
  induction pieces generalizing table with
  | nil =>
    refine ⟨trivial, fun bytes table' hencode => ?_⟩
    cases hencode
    exact h
  | cons piece pieces ih =>
    have hguarded : Guarded hit table piece :=
      .of_policed h hword (hpoliced piece (.head _)) hframed.1
    have hnext : ∀ bytes table', piece.encode hit table = .ok (bytes, table') →
        Discreet table' ∧ table'.generation < 2 ^ 64 ∧ Along hit Framed pieces table' := by
      intro bytes table' hencode
      have hrest := hframed.2 bytes table' hencode
      obtain ⟨written, -, hrecord⟩ := bind_eq_ok_iff.1 hencode
      obtain ⟨recorded, hrecord, hpure⟩ := bind_eq_ok_iff.1 hrecord
      cases hpure
      exact ⟨h.record hguarded.modest hrecord,
        Representation.generation_lt_of_record hword hrecord, hrest⟩
    have hothers : ∀ piece ∈ pieces, piece.Policed :=
      fun piece hpiece => hpoliced piece (.tail _ hpiece)
    refine ⟨⟨hguarded, fun bytes table' hencode => ?_⟩, fun bytes table' hencode => ?_⟩
    · obtain ⟨hdiscreet, hgen, hrest⟩ := hnext bytes table' hencode
      exact (ih hdiscreet hgen hothers hrest).1
    · obtain ⟨⟨first, table₁⟩, hfirst, hencode⟩ := bind_eq_ok_iff.1 hencode
      obtain ⟨⟨rest, table₂⟩, hlast, hpure⟩ := bind_eq_ok_iff.1 hencode
      cases hpure
      obtain ⟨hdiscreet, hgen, hrest⟩ := hnext first table₁ hfirst
      exact (ih hdiscreet hgen hothers hrest).2 rest table' hlast

end Blocks

/-- In every sequence of blocks under the automatic policy without crumbs of cookies, no table has a
sensitive entry, and in the block that comes next no sensitive field is written with indexing and
nothing sensitive is stored for any piece. -/
theorem discreet_of_crumbless (sender receiver : Layout) (W : ℕ) (s t : Session)
    (hlock : Lockstep s.encoder s.decoder) (hword : s.encoder.generation < 2 ^ 64)
    (h : Discreet s.encoder)
    (hrun : (session sender receiver W).Run (fun s block => block.useAutoPolicy = true ∧
      block.Crumbless ∧ block.Framed sender s.encoder) s t) :
    Discreet t.encoder ∧ Discreet t.decoder ∧
      ∀ block : Block, block.useAutoPolicy = true → block.Crumbless →
        block.Framed sender t.encoder → Along sender (Guarded sender) block.pieces t.encoder := by
  have hinv : (Lockstep t.encoder t.decoder ∧ t.encoder.generation < 2 ^ 64) ∧
      Discreet t.encoder := by
    refine hrun.invariant (I := fun t => (Lockstep t.encoder t.decoder ∧
      t.encoder.generation < 2 ^ 64) ∧ Discreet t.encoder) ⟨⟨hlock, hword⟩, h⟩ ?_
    rintro t block u ⟨⟨hlock, hgen⟩, hdiscreet⟩ ⟨hauto, hcrumbless, hframed⟩ hnext
    obtain ⟨bytes, headers, hsend, hdecode⟩ := session_next_eq_some hnext
    refine ⟨hlock.block hgen hframed hsend hdecode, ?_⟩
    rw [sendBlock_eq] at hsend
    exact (Guarded.along hdiscreet hgen (hcrumbless.policed hauto) hframed).2 bytes _ hsend
  obtain ⟨⟨hlock', hgen⟩, hdiscreet⟩ := hinv
  refine ⟨hdiscreet, fun entry hentry => hdiscreet entry ?_,
    fun block hauto hcrumbless hframed => ?_⟩
  · rwa [hlock'.deque]
  · exact (Guarded.along hdiscreet hgen (hcrumbless.policed hauto) hframed).1

/-- A block with a sensitive field, a cookie without crumbs and a field that is stored. -/
theorem discreet_of_crumbless_three :
    let block : Block := { headers := [⟨.token .authorization, text "b"⟩, ⟨.token .cookie, []⟩,
      ⟨.text (text "a"), text "b"⟩] }
    ∃ t, (session (fun _ _ => false) (fun _ _ => false) 4).next block ⟨{}, {}⟩ = some t ∧
      t.encoder.deque = [⟨.text (text "a"), text "b"⟩] ∧
      Discreet t.encoder ∧ Discreet t.decoder := by
  intro block
  have hsome : ((session (fun _ _ => false) (fun _ _ => false) 4).next block ⟨{}, {}⟩).isSome := by
    decide +kernel
  have hnext := (Option.some_get hsome).symm
  have hframed : block.Framed (fun _ _ => false) {} := by
    show Along (fun _ _ => false) Framed block.pieces {}
    decide +kernel
  have hcrumbless : block.Crumbless := by
    show ∀ entry ∈ block.headers, _
    decide +kernel
  obtain ⟨hencoder, hdecoder, -⟩ := discreet_of_crumbless (fun _ _ => false) (fun _ _ => false) 4
    ⟨{}, {}⟩ _ ⟨rfl, rfl, rfl, rfl⟩ (by decide) (fun entry hentry => nomatch hentry)
    (Transition.System.Run.refl.tail (l := block) ⟨rfl, hcrumbless, hframed⟩ hnext)
  refine ⟨_, hnext, ?_, hencoder, hdecoder⟩
  clear hencoder hdecoder hnext
  revert hsome
  decide +kernel

/-- A crumb of a cookie is stored by both sides. -/
theorem crumb_stored :
    ¬∀ (sender receiver : Layout) (W : ℕ) (t : Session),
      (session sender receiver W).Run (fun s block => block.useAutoPolicy = true ∧
        block.Framed sender s.encoder) ⟨{}, {}⟩ t → Discreet t.encoder ∨ Discreet t.decoder := by
  intro h
  let block : Block := { headers := [⟨.token .cookie, text "a=1"⟩] }
  have hsome : ((session (fun _ _ => false) (fun _ _ => false) 4).next block ⟨{}, {}⟩).isSome := by
    decide +kernel
  have hnext := (Option.some_get hsome).symm
  have hframed : block.Framed (fun _ _ => false) {} :=
    ⟨⟨by decide, by decide⟩, fun _ _ _ => trivial⟩
  have hdiscreet := h (fun _ _ => false) (fun _ _ => false) 4 _
    (Transition.System.Run.refl.tail (l := block) ⟨rfl, hframed⟩ hnext)
  clear hnext
  revert hsome
  unfold Discreet
  decide +kernel

end Congelado.Codec
