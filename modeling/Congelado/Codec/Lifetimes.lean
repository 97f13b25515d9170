import Congelado.Codec.Search

/-!
# Lifetimes in the dynamic table

The calls of `Codec.Table`, with two histories that the table does not have: the live entries with
the generations they were inserted as, and the insert whose strings the views of a key are of. An
`upsert` of a key that is there keeps the key, and with it the views of an earlier insert.

An entry is found under its own generation (`Addressed`) as long as no insert raises the counter
and stores nothing, which one with an empty name does. The views of the keys are of live entries
(`Alive`) as long as what is evicted is unshadowed: the key of a name stays when a newer entry has
the name, and its view is of the evicted one.
-/

namespace Congelado.Codec.DynamicTable

open List Transition

/-- A table with the histories. -/
structure Traced where
  table : DynamicTable
  /-- The live entries with the generations they were inserted as, the newest first. -/
  live : List (ℕ × HeaderEntry) := []
  /-- The insert whose strings the views of a key are of. -/
  owner : HeaderKey → ℕ := fun _ => 0

/-- The entry that a call stores. -/
def Op.stored (table : DynamicTable) : Op → Option HeaderEntry
  | .insert _ field => if table.maxSize < field.size ∨ field.name = .text [] then none
      else some field
  | _ => none

/-- The histories after a call. What is evicted is the oldest. -/
def Traced.step (hit : Layout) (op : Op) (t : Traced) (after : DynamicTable) : Traced :=
  match op.stored t.table with
  | none => { t with table := after, live := t.live.take after.deque.length }
  | some field =>
    { table := after
      live := (after.generation, field) :: t.live.take (after.deque.length - 1)
      -- a key that is still there after the evictions keeps its views
      owner := fun key =>
        if ((makeRoom hit field.size t.table).map.find? key).isSome then t.owner key
        else after.generation }

def traced (hit : Layout) : System Traced Op where
  next op t := ((system hit).next op t.table).map (t.step hit op)

variable {hit : Layout} {t t' : Traced} {after : DynamicTable} {op : Op} {field : HeaderEntry}

theorem Traced.table_step : (t.step hit op after).table = after := by
  rw [step]
  split <;> rfl

/-! ### Generations -/

/-- An entry is found under the generation it was inserted as, as long as it is live. -/
def Traced.Addressed (t : Traced) : Prop :=
  ∀ gen entry, t.table.atGeneration gen = some entry ↔ (gen, entry) ∈ t.live

/-- Generations are consecutive. -/
structure Dated (t : Traced) : Prop where
  dates : t.live = t.table.deque.mapIdx fun pos entry => (t.table.generation - pos, entry)
  le : t.table.deque.length ≤ t.table.generation
  word : t.table.generation < 2 ^ 64

theorem Dated.kept (h : Dated t) (hdeque : after.deque <+: t.table.deque)
    (hgen : after.generation = t.table.generation) :
    Dated { t with table := after, live := t.live.take after.deque.length } := by
  refine ⟨?_, hgen ▸ hdeque.length_le.trans h.le, hgen ▸ h.word⟩
  obtain ⟨rest, hrest⟩ := hdeque
  rw [h.dates, ← hrest, mapIdx_append, take_left' length_mapIdx, hgen]

theorem Dated.push (h : Dated t) (hdeque : after.deque = field :: t.table.deque)
    (hgen : after.generation = t.table.generation + 1) (hword : after.generation < 2 ^ 64)
    (owner : HeaderKey → ℕ) : Dated ⟨after, (after.generation, field) :: t.live, owner⟩ := by
  refine ⟨?_, ?_, hword⟩
  · show _ = List.mapIdx _ after.deque
    rw [hdeque, mapIdx_cons, h.dates, hgen]
    simp
  · show after.deque.length ≤ after.generation
    rw [hdeque, hgen]
    exact Nat.succ_le_succ h.le

theorem Dated.addressed (h : Dated t) : t.Addressed := by
  intro gen entry
  rw [h.dates, mem_mapIdx]
  constructor
  · intro hfound
    rw [atGeneration] at hfound
    split_ifs at hfound with hnpos
    have hlt := (List.getElem?_eq_some_iff.1 hfound).1
    have hgen : gen = t.table.generation - t.table.generationToPosition gen := by
      have hle := h.le
      rw [generationToPosition] at hnpos ⊢
      split_ifs at hnpos ⊢ <;> omega
    exact ⟨_, hlt, Prod.ext hgen.symm (List.getElem?_eq_some_iff.1 hfound).2⟩
  · rintro ⟨pos, hpos, heq⟩
    obtain ⟨rfl, rfl⟩ := Prod.mk.inj heq
    rw [atGeneration_sub h.le h.word hpos, getElem?_eq_getElem]

/-- What is stored has a name, and a generation of its own. -/
def Addressable (t : Traced) : Op → Prop
  | .insert _ field => field.size ≤ t.table.maxSize →
      field.name ≠ .text [] ∧ t.table.generation + 1 < 2 ^ 64
  | _ => True

instance (t : Traced) : (op : Op) → Decidable (Addressable t op)
  | .insert _ _ => inferInstanceAs (Decidable (_ → _))
  | .setMaxSize _ | .evictAll => isTrue trivial

theorem step_dated (hop : Addressable t op) (h : Dated t)
    (hnext : (traced hit).next op t = some t') : Dated t' := by
  have hall : Dated { t with table := t.table.evictAll, live := t.live.take 0 } :=
    h.kept nil_prefix rfl
  cases op with
  | evictAll =>
    cases hnext
    exact hall
  | setMaxSize newMax =>
    cases hnext
    obtain ⟨hdeque, hgen⟩ := @evictWhile_kept hit
      (fun table => decide (table.maxSize < table.currentSize)) t.table.deque.length
      { t.table with maxSize := newMax }
    exact h.kept hdeque hgen
  | insert mode field =>
    cases hnext
    by_cases hover : t.table.maxSize < field.size
    · rwa [Traced.step, Op.stored, if_pos (.inl hover), insert, if_pos hover]
    · have hle := not_lt.1 hover
      obtain ⟨hname, hword⟩ := hop hle
      obtain ⟨hdeque, hgen⟩ : (makeRoom hit field.size t.table).deque <+: t.table.deque ∧
        (makeRoom hit field.size t.table).generation = t.table.generation := evictWhile_kept _ _ _
      rw [Traced.step, Op.stored, if_neg (not_or.2 ⟨hover, hname⟩), insert_of_le mode hle hname,
        hgen, Nat.mod_eq_of_lt hword]
      exact (h.kept hdeque hgen).push rfl (by rw [hgen]) hword _

/-- In every run of a new table whose inserts have names and generations of their own, an entry is
found under its generation exactly while it is live. -/
theorem addressed_of_addressable (hit : Layout) (budget : ℕ) (t : Traced)
    (hrun : (traced hit).Run Addressable { table := { maxSize := budget } } t) : t.Addressed := by
  have hdated : Dated t := hrun.invariant (I := Dated) ⟨rfl, Nat.zero_le _, Nat.two_pow_pos 64⟩
    fun _ _ _ h hop hnext => step_dated hop h hnext
  exact hdated.addressed

/-- The third of three entries takes the room of the first. -/
theorem addressed_of_addressable_three : ∃ t : Traced,
    (traced fun _ _ => false).Run Addressable { table := { maxSize := 70 } } t ∧
      t.live.map Prod.fst = [3, 2] ∧ t.Addressed := by
  have hplay : (traced fun _ _ => false).playIf Addressable
    [.insert .qPack ⟨.text (text "a"), text "1"⟩, .insert .qPack ⟨.text (text "b"), text "2"⟩,
      .insert .qPack ⟨.text (text "c"), text "3"⟩] { table := { maxSize := 70 } } = some _ := rfl
  exact ⟨_, .of_playIf hplay, rfl, addressed_of_addressable _ _ _ (.of_playIf hplay)⟩

/-- An empty name is refused after the counter is raised, and the entry before it is found under the
generation of the one that was refused. -/
theorem generation_skipped : ∃ t : Traced,
    (traced fun _ _ => false).Run System.Any { table := {} } t ∧
      t.live = [(1, ⟨.text (text "a"), text "b"⟩)] ∧ t.table.atGeneration 1 = none ∧
      t.table.atGeneration 2 = some ⟨.text (text "a"), text "b"⟩ := by
  have hplay : (traced fun _ _ => false).play
    [.insert .qPack ⟨.text (text "a"), text "b"⟩, .insert .qPack ⟨.text [], []⟩]
      { table := {} } = some _ := rfl
  exact ⟨_, .of_play hplay, rfl, rfl, rfl⟩

/-! ### Views -/

/-- The views of the keys are of live entries. The key of a `Token` alone has none. -/
def Traced.Alive (t : Traced) : Prop :=
  ∀ row ∈ t.table.map.rows, (∀ token, row.1 ≠ .nameOnly (.token token)) →
    t.owner row.1 ∈ t.live.map Prod.fst

/-- The views of a key are of a live entry that has its name, and its value if the key has one. -/
structure Owned (t : Traced) : Prop where
  entries : t.live.map Prod.snd = t.table.deque
  owner : ∀ key, (t.table.map.find? key).isSome →
    ∃ entry, (t.owner key, entry) ∈ t.live ∧ key.Covers entry

theorem Owned.alive (h : Owned t) : t.Alive := by
  intro row hrow _
  obtain ⟨entry, hentry, -⟩ := h.owner row.1 (by rw [Keyed.Table.find?_of_mem hrow]; rfl)
  exact mem_map_of_mem hentry

theorem Owned.evictOldest (h : Owned t) (hindexed : Indexed t.table) {front : List HeaderEntry}
    {last : HeaderEntry} (hdeque : t.table.deque = front ++ [last])
    (hlast : ∀ entry ∈ front, entry.name ≠ last.name) :
    Owned { t with table := evictOldest hit t.table, live := t.live.take front.length } := by
  obtain ⟨newer, oldest, hlive, hnewer, holdest⟩ := map_eq_append_iff.1 (h.entries.trans hdeque)
  have htake : t.live.take front.length = newer := by
    rw [hlive, take_left' (by rw [← hnewer, length_map])]
  constructor
  · show List.map _ (List.take _ _) = (DynamicTable.evictOldest hit t.table).deque
    rw [htake, hnewer, deque_evictOldest, hdeque, dropLast_concat]
  · intro key hkey
    rw [hindexed.find?_evictOldest hdeque hlast] at hkey
    split_ifs at hkey with hcovers
    · exact absurd hkey (by decide)
    obtain ⟨entry, hentry, hkept⟩ := h.owner key hkey
    refine ⟨entry, ?_, hkept⟩
    show _ ∈ List.take _ _
    rw [hlive, mem_append] at hentry
    obtain hentry | hgone := hentry
    · rwa [htake]
    · obtain rfl := mem_singleton.1 (holdest ▸ mem_map_of_mem hgone)
      exact absurd hkept hcovers

theorem Owned.evicts (h : Owned t) (hindexed : Indexed t.table)
    (hevicts : Evicts hit t.table after) :
    Owned { t with table := after, live := t.live.take after.deque.length } := by
  induction hevicts with
  | refl =>
    rw [take_of_length_le (by rw [← h.entries, length_map])]
    exact h
  | tail hchain hstep ih =>
    obtain ⟨front, last, hdeque, hlast, rfl⟩ := hstep
    have hnext : Owned { t with table := DynamicTable.evictOldest hit _, live := _ } :=
      ih.evictOldest (hindexed.evicts hchain).1 hdeque hlast
    simpa [take_take, hdeque] using hnext

theorem Owned.push (h : Owned t) (hdeque : after.deque = field :: t.table.deque)
    (hmap : ∀ key : HeaderKey, ¬key.Covers field →
      after.map.find? key = t.table.map.find? key) :
    Owned ⟨after, (after.generation, field) :: t.live,
      fun key => if (t.table.map.find? key).isSome then t.owner key else after.generation⟩ := by
  refine ⟨?_, fun key hkey => ?_⟩
  · show _ :: _ = after.deque
    rw [hdeque, h.entries]
  · show ∃ entry, (ite _ _ _, entry) ∈ _ :: _ ∧ _
    split_ifs with hsome
    · obtain ⟨entry, hentry, hcovers⟩ := h.owner key hsome
      exact ⟨entry, .tail _ hentry, hcovers⟩
    · refine ⟨field, .head _, ?_⟩
      by_contra hnot
      exact hsome (hmap key hnot ▸ hkey)

theorem step_owned (hop : Searchable t.table op) (htallied : Tallied t.table)
    (hindexed : Indexed t.table) (h : Owned t)
    (hnext : (traced hit).next op t = some t') : Owned t' := by
  cases op with
  | evictAll =>
    cases hnext
    exact ⟨rfl, fun _ hkey => absurd hkey Bool.false_ne_true⟩
  | setMaxSize newMax =>
    cases hnext
    have hresized : Owned { t with table := { t.table with maxSize := newMax } } :=
      ⟨h.entries, h.owner⟩
    exact hresized.evicts ⟨hindexed.plain, hindexed.newest, hindexed.live, hindexed.bound⟩
      (setMaxSize_evicts htallied hop)
  | insert mode field =>
    cases hnext
    by_cases hover : t.table.maxSize < field.size
    · rw [Traced.step, Op.stored, if_pos (.inl hover), insert, if_pos hover]
      exact ⟨rfl, fun _ hkey => absurd hkey Bool.false_ne_true⟩
    · have hle := not_lt.1 hover
      obtain ⟨⟨name, hne, hfield⟩, hsmall⟩ := hop.1.resolve_left hover
      have hname : field.name ≠ .text [] := by simpa [hfield] using hne
      have hevicts : Evicts hit _ _ := makeRoom_evicts htallied hle hsmall (hop.2 hle).1
      have hroom := h.evicts hindexed hevicts
      rw [Traced.step, Op.stored, if_neg (not_or.2 ⟨hover, hname⟩), insert_of_le mode hle hname]
      exact hroom.push rfl fun key hnot => (find?_upserts key field _ _).trans (if_neg hnot)

/-- In every run of a new table in which what is evicted is unshadowed, the views of the keys are of
live entries. -/
theorem alive_of_searchable (hit : Layout) (budget : ℕ) (t : Traced)
    (hrun : (traced hit).Run (fun t op => Searchable t.table op)
      { table := { maxSize := budget } } t) : t.Alive := by
  have hinv : Tallied t.table ∧ Indexed t.table ∧ Owned t := by
    refine hrun.invariant (I := fun t => Tallied t.table ∧ Indexed t.table ∧ Owned t)
      ⟨.evictAll { maxSize := budget }, .new budget, rfl, nofun⟩ ?_
    intro t op t' ⟨htallied, hindexed, howned⟩ hop hnext
    have howned' := step_owned hop htallied hindexed howned hnext
    obtain ⟨after, hafter, rfl⟩ := Option.map_eq_some_iff.1 hnext
    rw [Traced.table_step]
    exact ⟨(step_tallied hop.counted htallied hafter).1, step_indexed hop htallied hindexed hafter,
      howned'⟩
  exact hinv.2.2.alive

/-- The third of three entries takes the room of the first, and its keys. -/
theorem alive_of_searchable_three : ∃ t : Traced,
    (traced fun _ _ => false).Run (fun t op => Searchable t.table op)
      { table := { maxSize := 70 } } t ∧ t.table.map.rows.length = 4 ∧ t.Alive := by
  have hplay : (traced fun _ _ => false).playIf (fun t op => Searchable t.table op)
    [.insert .qPack ⟨.text (text "a"), text "1"⟩, .insert .qPack ⟨.text (text "b"), text "2"⟩,
      .insert .qPack ⟨.text (text "c"), text "3"⟩] { table := { maxSize := 70 } } = some _ := rfl
  exact ⟨_, .of_playIf hplay, rfl, alive_of_searchable _ _ _ (.of_playIf hplay)⟩

/-- Of two entries with one name the older is evicted: the key of the name stays, and its view is of
the entry that is gone. -/
theorem view_dangling : ∃ t : Traced,
    (traced fun _ _ => false).Run System.Any { table := { maxSize := 100 } } t ∧
      t.live.map Prod.fst = [3, 2] ∧ t.owner (.nameOnly (.text (text "a"))) = 1 ∧ ¬t.Alive := by
  have hplay : (traced fun _ _ => false).play
    [.insert .qPack ⟨.text (text "a"), text "b"⟩, .insert .qPack ⟨.text (text "a"), text "c"⟩,
      .insert .qPack ⟨.text (text "d"), text "e"⟩] { table := { maxSize := 100 } } = some _ := rfl
  refine ⟨_, .of_play hplay, rfl, rfl, fun halive => ?_⟩
  have howner := halive (.nameOnly (.text (text "a")), 2) (by decide +kernel) (by simp)
  exact absurd howner (by decide +kernel)

end Congelado.Codec.DynamicTable
