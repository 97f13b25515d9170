import Congelado.Codec.Trie

/-!
# What the Huffman decoder accepts

The table of transitions is the trie, `W` bits at a time: a row stands for the bits that have been
read of an open code, and an entry says what reading a chunk more comes to (`Simulates`). Since a
code has at least five bits and a chunk at most four, no chunk ends two codes, so that the decoder
returns the word whose codes the bits begin with (`decode_eq_ok_iff`).

Of the bits that are left over the decoder only looks at how many there are.
-/

namespace Congelado.Codec.Huffman

open PrefixCode List Option

variable {word : List UInt8}

/-! ### The table -/

section Table

/-- Row and chunk of a slot. -/
theorem slot_parts {W chunk : ℕ} (row : ℕ) (hchunk : chunk < 2 ^ W) :
    (row * 2 ^ W + chunk) / 2 ^ W = row ∧ (row * 2 ^ W + chunk) % 2 ^ W = chunk := by
  rw [mul_comm row]
  constructor
  · rw [Nat.mul_add_div (Nat.two_pow_pos W), Nat.div_eq_of_lt hchunk, Nat.add_zero]
  · rw [Nat.mul_add_mod, Nat.mod_eq_of_lt hchunk]

/-- The rows that have been filled: `paths` are those of the trie, and each entry is the one of
the walk from the node of its row. -/
structure Filled (trie : Trie) (paths : List (List Bool)) (W : ℕ) (rows : Rows) : Prop where
  nodup : rows.queue.Nodup
  root : rows.queue[0]? = some 0
  opened : ∀ n ∈ rows.queue, ∃ p, paths[n]? = some p ∧ Open code p
  slot : ∀ slot < rows.entries.length, ∃ start, rows.queue[slot / 2 ^ W]? = some start ∧
    rows.entries[slot]? =
      some (slotEntry rows.queue (walkBits trie (bits W (slot % 2 ^ W)) start none)) ∧
    ∀ cur emitted, walkBits trie (bits W (slot % 2 ^ W)) start none = some (cur, emitted) →
      cur ∈ rows.queue

namespace Filled

variable {trie : Trie} {paths : List (List Bool)} {W : ℕ} {rows : Rows}

theorem queue_length_le (hspells : Spells trie paths fun _ => True) (h : Filled trie paths W rows) :
    rows.queue.length ≤ trie.length := by
  have hsub : rows.queue ⊆ List.range trie.length := by
    intro n hn
    obtain ⟨p, hp, -⟩ := h.opened n hn
    exact mem_range.2 (hspells.lt hp)
  simpa using (h.nodup.subperm hsub).length_le

/-- An entry stays what it is when a node is put in the queue. -/
theorem slotEntry_enqueue {queue : List ℕ} {walk : Option (ℕ × Option ℕ)} (more : List ℕ)
    (h : ∀ cur emitted, walk = some (cur, emitted) → cur ∈ queue) :
    slotEntry (queue ++ more) walk = slotEntry queue walk := by
  cases walk with
  | none => rfl
  | some walk =>
    rw [slotEntry, slotEntry, idxOf_append_of_mem (h walk.1 walk.2 rfl)]

theorem enqueue_eq (queue : List ℕ) (walk : Option (ℕ × Option ℕ)) :
    ∃ more, enqueue queue walk = queue ++ more ∧
      ∀ n ∈ more, n ∉ queue ∧ more = [n] ∧ ∃ emitted, walk = some (n, emitted) := by
  cases walk with
  | none => exact ⟨[], by rw [enqueue, append_nil], by simp⟩
  | some walk =>
    rw [enqueue]
    split_ifs with hmem
    · exact ⟨[], by rw [append_nil], by simp⟩
    · refine ⟨[walk.1], rfl, fun n hn => ?_⟩
      obtain rfl := mem_singleton.1 hn
      exact ⟨hmem, rfl, walk.2, rfl⟩

section

variable (hspells : Spells trie paths fun _ => True)

include hspells

/-- One entry more. -/
theorem fillSlot (h : Filled trie paths W rows)
    {start chunk : ℕ} (hstart : rows.queue[rows.entries.length / 2 ^ W]? = some start)
    (hchunk : chunk = rows.entries.length % 2 ^ W) :
    Filled trie paths W (fillSlot trie W start rows chunk) ∧
      rows.queue <+: (Huffman.fillSlot trie W start rows chunk).queue ∧
      (Huffman.fillSlot trie W start rows chunk).entries.length = rows.entries.length + 1 := by
  obtain ⟨more, hqueue, hmore⟩ :=
    enqueue_eq rows.queue (walkBits trie (bits W chunk) start none)
  have hlt := (List.getElem?_eq_some_iff.1 hstart).1
  rw [Huffman.fillSlot]
  refine ⟨⟨?_, ?_, ?_, ?_⟩, ?_, ?_⟩
  · rw [hqueue]
    refine nodup_append'.2 ⟨h.nodup, ?_, ?_⟩
    · cases more with
      | nil => exact nodup_nil
      | cons n more =>
        rw [(hmore n (.head _)).2.1]
        exact nodup_singleton n
    · intro n hn hn'
      exact (hmore n hn').1 hn
  · rw [hqueue, getElem?_append_left, h.root]
    exact (Nat.zero_le _).trans_lt hlt
  · intro n hn
    rw [hqueue] at hn
    obtain hn | hn := mem_append.1 hn
    · exact h.opened n hn
    · -- a node at the end of a walk is labelled with what the walk has left open
      obtain ⟨-, -, emitted, hwalk⟩ := hmore n hn
      obtain ⟨p, hp, hopen⟩ := h.opened start (mem_of_getElem? hstart)
      obtain ⟨word, r, -, hr, hn', -⟩ := (hspells.walkBits_eq_some_iff hp hopen).1 hwalk
      exact ⟨r, hn', hr⟩
  · intro slot hslot
    rw [length_append, length_singleton] at hslot
    obtain hslot | rfl := Nat.lt_succ_iff_lt_or_eq.mp hslot
    · obtain ⟨s, hs, hentry, hmem⟩ := h.slot slot hslot
      refine ⟨s, ?_, ?_, ?_⟩
      · rw [hqueue, getElem?_append_left (List.getElem?_eq_some_iff.1 hs).1, hs]
      · rw [getElem?_append_left hslot, hentry, hqueue, slotEntry_enqueue more hmem]
      · intro cur emitted hwalk
        rw [hqueue]
        exact mem_append_left _ (hmem cur emitted hwalk)
    · refine ⟨start, ?_, ?_, ?_⟩
      · rw [hqueue, getElem?_append_left hlt, hstart]
      · rw [getElem?_append_right le_rfl, Nat.sub_self, ← hchunk]
        rfl
      · intro cur emitted hwalk
        rw [← hchunk] at hwalk
        rw [hwalk]
        rw [enqueue]
        split_ifs with hmem
        · exact hmem
        · exact mem_append_right _ (mem_singleton_self cur)
  · rw [hqueue]
    exact prefix_append _ _
  · rw [length_append, length_singleton]

/-- A whole row. -/
theorem fillRow (h : Filled trie paths W rows)
    {start head : ℕ} (hstart : rows.queue[head]? = some start)
    (hlen : rows.entries.length = head * 2 ^ W) :
    Filled trie paths W (fillRow trie W rows start) ∧
      rows.queue <+: (Huffman.fillRow trie W rows start).queue ∧
      (Huffman.fillRow trie W rows start).entries.length = (head + 1) * 2 ^ W := by
  suffices hchunks : ∀ j ≤ 2 ^ W,
      Filled trie paths W ((List.range j).foldl (Huffman.fillSlot trie W start) rows) ∧
        rows.queue <+: ((List.range j).foldl (Huffman.fillSlot trie W start) rows).queue ∧
        ((List.range j).foldl (Huffman.fillSlot trie W start) rows).entries.length =
          head * 2 ^ W + j by
    rw [add_mul, one_mul]
    exact hchunks _ le_rfl
  intro j hj
  induction j with
  | zero => exact ⟨h, prefix_rfl, hlen⟩
  | succ j ih =>
    obtain ⟨hfilled, hqueue, hlen'⟩ := ih (Nat.le_of_succ_le hj)
    rw [range_succ, foldl_append, foldl_cons, foldl_nil]
    obtain ⟨hdiv, hmod⟩ := slot_parts head hj
    have hstart' : ((List.range j).foldl (Huffman.fillSlot trie W start) rows).queue[
        ((List.range j).foldl (Huffman.fillSlot trie W start) rows).entries.length / 2 ^ W]? =
          some start := by
      rw [hlen', hdiv]
      obtain ⟨more, hmore⟩ := hqueue
      rw [← hmore, getElem?_append_left (List.getElem?_eq_some_iff.1 hstart).1, hstart]
    obtain ⟨hnext, hprefix, hlen''⟩ := hfilled.fillSlot hspells hstart' (by rw [hlen', hmod])
    refine ⟨hnext, hqueue.trans hprefix, ?_⟩
    rw [hlen'', hlen', add_assoc]

/-- The search ends with all rows filled. -/
theorem fillRows (fuel head : ℕ)
    (h : Filled trie paths W rows) (hlen : rows.entries.length = head * 2 ^ W)
    (hhead : head ≤ rows.queue.length) (hfuel : trie.length ≤ head + fuel) :
    Filled trie paths W (fillRows trie W fuel head rows) ∧
      (Huffman.fillRows trie W fuel head rows).entries.length =
        (Huffman.fillRows trie W fuel head rows).queue.length * 2 ^ W := by
  induction fuel generalizing head rows with
  | zero =>
    have hall : head = rows.queue.length := by
      have := h.queue_length_le hspells
      omega
    exact ⟨h, hall ▸ hlen⟩
  | succ fuel ih =>
    rw [Huffman.fillRows]
    cases hstart : rows.queue[head]? with
    | none =>
      have hall : head = rows.queue.length := by
        have := List.getElem?_eq_none_iff.1 hstart
        omega
      exact ⟨h, hall ▸ hlen⟩
    | some start =>
      obtain ⟨hrow, hprefix, hlen'⟩ := h.fillRow hspells hstart hlen
      refine ih (head + 1) hrow hlen' ?_ (by omega)
      have := (List.getElem?_eq_some_iff.1 hstart).1
      exact this.trans_le hprefix.length_le

end

end Filled

/-- A table of transitions does what reading codes bit by bit does. `At fsm p` says that in the
state `fsm` the bits `p` have been read of an open code. -/
structure Simulates (W : ℕ) (entries : List (ℕ × ℕ)) (At : ℕ → List Bool → Prop) : Prop where
  root : At 0 []
  zero : ∀ {fsm p}, At fsm p → (fsm = 0 ↔ p = [])
  opened : ∀ {fsm p}, At fsm p → Open code p
  step : ∀ {fsm p chunk} {word : List (Fin 257)} {r}, At fsm p → chunk < 2 ^ W →
    p ++ bits W chunk = word.flatMap code ++ r → Open code r →
    ∃ fsm', At fsm' r ∧ entries.getD (fsm * 2 ^ W + chunk) (0, 0) =
      (fsm', (word.getLast?.map Fin.val).getD 0xFFFE)
  stuck : ∀ {fsm p chunk}, At fsm p → chunk < 2 ^ W →
    (¬∃ (word : List (Fin 257)) (r : List Bool),
      p ++ bits W chunk = word.flatMap code ++ r ∧ Open code r) →
    entries.getD (fsm * 2 ^ W + chunk) (0, 0) = (0xFFFF, 0xFFFF)

theorem buildTable_filled (W : ℕ) {paths : List (List Bool)}
    (hspells : Spells buildTrie paths fun _ => True) :
    Filled buildTrie paths W (buildTable W) ∧
      (buildTable W).entries.length = (buildTable W).queue.length * 2 ^ W := by
  have hempty : Filled buildTrie paths W ⟨[0], []⟩ := by
    refine ⟨nodup_singleton 0, rfl, fun n hn => ?_, fun slot hslot => nomatch hslot⟩
    obtain rfl := mem_singleton.1 hn
    exact ⟨[], hspells.root, Open.nil (code_ne_nil 0)⟩
  exact hempty.fillRows hspells buildTrie.length 0 (by simp) (Nat.zero_le _) (by omega)

theorem exists_simulates (W : ℕ) : ∃ At, Simulates W (buildTable W).entries At := by
  obtain ⟨paths, hspells⟩ := exists_spells
  obtain ⟨hfilled, hlen⟩ := buildTable_filled W hspells
  -- the entry of a row and a chunk
  have hslot {row node chunk : ℕ} (hrow : (buildTable W).queue[row]? = some node)
      (hchunk : chunk < 2 ^ W) :
      (buildTable W).entries.getD (row * 2 ^ W + chunk) (0, 0) =
        slotEntry (buildTable W).queue (walkBits buildTrie (bits W chunk) node none) ∧
      ∀ cur emitted, walkBits buildTrie (bits W chunk) node none = some (cur, emitted) →
        cur ∈ (buildTable W).queue := by
    have hlt := (List.getElem?_eq_some_iff.1 hrow).1
    obtain ⟨hdiv, hmod⟩ := slot_parts row hchunk
    have hbound : row * 2 ^ W + chunk < (buildTable W).entries.length := by
      rw [hlen]
      calc row * 2 ^ W + chunk < row * 2 ^ W + 2 ^ W := Nat.add_lt_add_left hchunk _
        _ = (row + 1) * 2 ^ W := by ring
        _ ≤ (buildTable W).queue.length * 2 ^ W := Nat.mul_le_mul_right _ hlt
    obtain ⟨start, hstart, hentry, hmem⟩ := hfilled.slot _ hbound
    rw [hdiv] at hstart
    obtain rfl := Option.some.inj (hrow.symm.trans hstart)
    rw [hmod] at hentry hmem
    exact ⟨by rw [getD_eq_getElem?_getD, hentry, getD_some], hmem⟩
  refine ⟨fun fsm p => ∃ node, (buildTable W).queue[fsm]? = some node ∧ paths[node]? = some p,
    ⟨⟨0, hfilled.root, hspells.root⟩, ?_, ?_, ?_, ?_⟩⟩
  · rintro fsm p ⟨node, hfsm, hp⟩
    constructor
    · rintro rfl
      obtain rfl := Option.some.inj (hfilled.root.symm.trans hfsm)
      exact Option.some.inj (hp.symm.trans hspells.root)
    · rintro rfl
      obtain rfl := hspells.inj hp hspells.root
      obtain ⟨hlt, h0⟩ := List.getElem?_eq_some_iff.1 hfsm
      obtain ⟨hlt', h0'⟩ := List.getElem?_eq_some_iff.1 hfilled.root
      exact hfilled.nodup.getElem_inj_iff.1 (h0.trans h0'.symm)
  · rintro fsm p ⟨node, hfsm, hp⟩
    obtain ⟨q, hq, hopen⟩ := hfilled.opened node (mem_of_getElem? hfsm)
    exact Option.some.inj (hq.symm.trans hp) ▸ hopen
  · rintro fsm p chunk word r ⟨node, hfsm, hp⟩ hchunk hparse hr
    obtain ⟨q, hq, hopen⟩ := hfilled.opened node (mem_of_getElem? hfsm)
    obtain rfl := Option.some.inj (hq.symm.trans hp)
    obtain ⟨hentry, hmem⟩ := hslot hfsm hchunk
    -- the walk cannot fail, and by uniqueness it ends where the reading ends
    obtain ⟨cur, hcur⟩ : ∃ cur, paths[cur]? = some r := by
      obtain ⟨s, hs, -⟩ := hr
      exact mem_iff_getElem?.mp ((hspells.mem r).2 (.inr ⟨s, trivial, hs⟩))
    have hwalk : walkBits buildTrie (bits W chunk) node none =
        some (cur, word.getLast?.map Fin.val) :=
      (hspells.walkBits_eq_some_iff hq hopen).2
        ⟨word, r, hparse, hr, hcur, by rw [or_none]⟩
    have hqueue := hmem _ _ hwalk
    rw [hwalk, slotEntry] at hentry
    refine ⟨_, ⟨cur, ?_, hcur⟩, hentry⟩
    exact getElem?_idxOf hqueue
  · rintro fsm p chunk ⟨node, hfsm, hp⟩ hchunk hnot
    obtain ⟨q, hq, hopen⟩ := hfilled.opened node (mem_of_getElem? hfsm)
    obtain rfl := Option.some.inj (hq.symm.trans hp)
    obtain ⟨hentry, -⟩ := hslot hfsm hchunk
    cases hwalk : walkBits buildTrie (bits W chunk) node none with
    | none => rw [hentry, hwalk, slotEntry]
    | some walk =>
      obtain ⟨word, r, hparse, hr, -⟩ := (hspells.walkBits_eq_some_iff hq hopen).1 hwalk
      exact absurd ⟨word, r, hparse, hr⟩ hnot

end Table

/-! ### The decoder -/

section Decode

/-- A chunk ends at most one code, and leaves less than a chunk behind it. -/
theorem chunk_word {p chunk r : List Bool} {word : List (Fin 257)} (hp : Open code p)
    (hlen : chunk.length ≤ 4) (h : p ++ chunk = word.flatMap code ++ r) :
    word = [] ∨ ∃ s, word = [s] ∧ r.length < chunk.length := by
  cases word with
  | nil => exact .inl rfl
  | cons s word =>
    right
    rw [flatMap_cons, append_assoc] at h
    have hlonger : p.length < (code s).length := by
      by_contra hle
      have hs : code s <+: p ++ chunk := h ▸ prefix_append _ _
      exact hp.undecoded code_prefixFree s
        (prefix_of_prefix_length_le hs (prefix_append _ _) (Nat.le_of_not_lt hle))
    have hsum := congrArg List.length h
    simp only [length_append] at hsum
    cases word with
    | nil =>
      refine ⟨s, rfl, ?_⟩
      rw [flatMap_nil, length_nil] at hsum
      omega
    | cons s' word =>
      rw [flatMap_cons, length_append] at hsum
      have := (length_code s').1
      omega

theorem map_cons_eq_ok_iff {read : Except CodecError (List UInt8)} {b : UInt8} :
    read.map (b :: ·) = .ok word ↔ ∃ word', word = b :: word' ∧ read = .ok word' := by
  cases read with
  | error e =>
    refine iff_of_false (fun h => nomatch h) ?_
    rintro ⟨_, -, h⟩
    exact nomatch h
  | ok word' =>
    constructor
    · intro h
      exact ⟨word', (Except.ok.inj h).symm, rfl⟩
    · rintro ⟨_, rfl, h⟩
      cases h
      rfl

theorem symbol_eq_iff {b : UInt8} {s : Fin 257} : symbol b = s ↔ s.val < 256 ∧
    b = UInt8.ofNat s := by
  constructor
  · rintro rfl
    exact ⟨b.toNat_lt, UInt8.ofNat_toNat.symm⟩
  · rintro ⟨hs, rfl⟩
    exact Fin.ext (UInt8.toNat_ofNat_of_lt' hs)

variable {W : ℕ} {entries : List (ℕ × ℕ)} {At : ℕ → List Bool → Prop}

/-- From the bits `p` of an open code on, the decoder returns the word that the bits spell, if at
most seven are left over. `paddingBits` counts them up to a chunk. -/
theorem decodeFrom_eq_ok_iff (hW : 1 ≤ W ∧ W ≤ 4) (hdvd : W ∣ 8) (hsim : Simulates W entries At)
    {cs : List ℕ} {fsm pad : ℕ} {p : List Bool} (hcs : ∀ c ∈ cs, c < 2 ^ W) (hat : At fsm p)
    (hpad : W ∣ pad) (hle : pad ≤ p.length) (hlt : p.length < pad + W) {word : List UInt8} :
    decodeFrom W entries cs fsm pad = .ok word ↔
      ∃ r, p ++ cs.flatMap (bits W) = (word.map symbol).flatMap code ++ r ∧ Open code r ∧
        r.length ≤ 7 := by
  induction cs generalizing fsm pad p word with
  | nil =>
    have hseven : ¬(fsm ≠ 0 ∧ 7 < pad) ↔ p.length ≤ 7 := by
      constructor
      · intro h
        by_cases hfsm : fsm = 0
        · rw [(hsim.zero hat).1 hfsm]
          exact Nat.zero_le 7
        · -- a whole number of chunks below eight leaves room for one more
          obtain ⟨k, rfl⟩ := hpad
          obtain ⟨m, hm⟩ := hdvd
          have hk : k < m := by
            refine Nat.lt_of_mul_lt_mul_left (a := W) ?_
            have : ¬7 < W * k := fun h' => h ⟨hfsm, h'⟩
            omega
          have := Nat.mul_le_mul_left W (Nat.succ_le_of_lt hk)
          rw [Nat.mul_succ, ← hm] at this
          omega
      · rintro h ⟨-, hpad⟩
        omega
    rw [decodeFrom, flatMap_nil, append_nil]
    constructor
    · intro h
      split_ifs at h with hend
      cases h
      exact ⟨p, rfl, hsim.opened hat, hseven.1 hend⟩
    · rintro ⟨r, hparse, hr, hseven'⟩
      have hnil : ([] : List (Fin 257)).flatMap code ++ p = (word.map symbol).flatMap code ++ r :=
        hparse
      obtain ⟨hword, rfl⟩ := eq_of_flatMap_append_eq code_prefixFree (hsim.opened hat) hr hnil
      rw [if_neg (hseven.2 hseven'), map_eq_nil_iff.1 hword.symm]
  | cons chunk cs ih =>
    have hchunk := hcs chunk (.head _)
    have hcs' : ∀ c ∈ cs, c < 2 ^ W := fun c hc => hcs c (.tail _ hc)
    rw [decodeFrom, flatMap_cons, ← append_assoc]
    by_cases hread : ∃ (word' : List (Fin 257)) (r : List Bool),
        p ++ bits W chunk = word'.flatMap code ++ r ∧ Open code r
    · obtain ⟨word', r', hparse, hr'⟩ := hread
      obtain ⟨fsm', hat', hentry⟩ := hsim.step hat hchunk hparse hr'
      obtain rfl | ⟨s, rfl, hshort⟩ :=
        chunk_word (hsim.opened hat) (by rw [length_bits]; exact hW.2) hparse
      · -- no code ends in this chunk
        simp only [getLast?_nil, map_none, getD_none] at hentry
        rw [flatMap_nil, nil_append] at hparse
        simp only [hentry]
        rw [if_neg (by decide), if_neg (by decide), if_neg (by decide), hparse]
        have hlen : r'.length = p.length + W := by rw [← hparse, length_append, length_bits]
        exact ih hcs' hat' (dvd_add hpad (dvd_refl W)) (by omega) (by omega)
      · simp only [getLast?_singleton, map_some, getD_some] at hentry
        rw [flatMap_singleton] at hparse
        rw [length_bits] at hshort
        simp only [hentry]
        rw [hparse, append_assoc]
        by_cases hbyte : s.val < 256
        · rw [if_pos hbyte, map_cons_eq_ok_iff]
          have hrest {word : List UInt8} := @ih _ _ _ hcs' hat' (dvd_zero W)
            (Nat.zero_le _) (by omega) word
          constructor
          · rintro ⟨word', rfl, hdecode⟩
            obtain ⟨r, htail, hr, hseven⟩ := hrest.1 hdecode
            refine ⟨r, ?_, hr, hseven⟩
            rw [htail, map_cons, symbol_eq_iff.2 ⟨hbyte, rfl⟩, flatMap_cons,
              append_assoc]
          · rintro ⟨r, hword, hr, hseven⟩
            obtain ⟨syms, hsyms, htail⟩ := exists_eq_cons code_prefixFree hr hword
            obtain ⟨b, word', rfl, hb, rfl⟩ := map_eq_cons_iff.1 hsyms
            exact ⟨word', by rw [(symbol_eq_iff.1 hb).2], hrest.2 ⟨r, htail, hr, hseven⟩⟩
        · -- the end of string, which is no byte
          have heos : s.val = symEos := by
            have := s.isLt
            rw [symEos]
            omega
          rw [if_neg hbyte, heos, if_neg (by decide), if_pos rfl]
          refine iff_of_false (fun h => nomatch h) ?_
          rintro ⟨r, hword, hr, -⟩
          obtain ⟨syms, hsyms, -⟩ := exists_eq_cons code_prefixFree hr hword
          obtain ⟨b, word', -, hb, -⟩ := map_eq_cons_iff.1 hsyms
          exact hbyte (symbol_eq_iff.1 hb).1
    · simp only [hsim.stuck hat hchunk hread]
      rw [if_neg (by decide), if_pos trivial]
      refine iff_of_false (fun h => nomatch h) ?_
      rintro ⟨r, hparse, hr, -⟩
      exact hread (exists_flatMap_append hr hparse)

variable (data : List UInt8)

/-- The bits of bytes. -/
def bitsOf : List Bool := data.flatMap fun b => bits 8 b.toNat

/-- The codes of a string, one after the other. -/
def stream : List Bool := data.flatMap fun b => code (symbol b)

theorem flatMap_chunks (hW : W ∈ [1, 2, 4]) (data : List UInt8) :
    (∀ c ∈ data.flatMap (chunks W), c < 2 ^ W) ∧
      (data.flatMap (chunks W)).flatMap (bits W) = bitsOf data := by
  have hbyte : ∀ W ∈ [1, 2, 4], ∀ x : Fin 256, (∀ c ∈ chunks W (UInt8.ofNat x.val), c < 2 ^ W) ∧
      (chunks W (UInt8.ofNat x.val)).flatMap (bits W) = bits 8 x.val := by decide +kernel
  have hchunks (b : UInt8) := hbyte W hW ⟨b.toNat, b.toNat_lt⟩
  simp only [UInt8.ofNat_toNat] at hchunks
  constructor
  · intro c hc
    obtain ⟨b, -, hcb⟩ := mem_flatMap.1 hc
    exact (hchunks b).1 c hcb
  · rw [flatMap_assoc, bitsOf]
    congr 1
    funext b
    exact (hchunks b).2

/-- The decoder returns the word that the bits spell, if at most seven bits are left over. -/
theorem decode_eq_ok_iff (hW : W ∈ [1, 2, 4]) {data : List UInt8} :
    decode W data = .ok word ↔
      ∃ r, bitsOf data = stream word ++ r ∧ Open code r ∧ r.length ≤ 7 := by
  obtain ⟨At, hsim⟩ := exists_simulates W
  obtain ⟨hcs, hbits⟩ := flatMap_chunks hW data
  have hwidths : ∀ W ∈ [1, 2, 4], (1 ≤ W ∧ W ≤ 4) ∧ W ∣ 8 := by decide
  obtain ⟨hbounds, hdvd⟩ := hwidths W hW
  have hpad : ([] : List Bool).length < 0 + W := by
    rw [length_nil]
    omega
  rw [decode, decodeFrom_eq_ok_iff hbounds hdvd hsim hcs hsim.root (Nat.dvd_zero W)
    (Nat.zero_le _) hpad, hbits, stream, flatMap_map, nil_append]

end Decode

/-! ### Strictness -/

section Strict

variable (data : List UInt8)

/-- Whole codes of bytes, and then at most seven bits, all ones. -/
def WellFormed : Prop :=
  ∃ word pad, bitsOf data = stream word ++ List.replicate pad true ∧ pad ≤ 7

/-- Whole codes of bytes, and then at most seven bits that begin another code, with a zero among
them. -/
def ZeroPadded : Prop :=
  ∃ word r, bitsOf data = stream word ++ r ∧ Open code r ∧ r.length ≤ 7 ∧ false ∈ r

theorem open_ones {pad : ℕ} (h : pad ≤ 7) : Open code (List.replicate pad true) := by
  have heos : code 256 = List.replicate 30 true := by decide +kernel
  refine ⟨256, ?_, ?_⟩
  · rw [heos]
    exact ⟨List.replicate (30 - pad) true, by rw [replicate_append_replicate]; congr 1; omega⟩
  · intro heq
    have := congrArg List.length heq
    rw [heos, length_replicate, length_replicate] at this
    omega

/-- Bits are read in one way, so what is left over is the same in every reading. -/
theorem stream_append_inj {word' : List UInt8} {r r' : List Bool} (hr : Open code r)
    (hr' : Open code r') (h : stream word ++ r = stream word' ++ r') : r = r' := by
  rw [stream, stream, ← flatMap_map symbol code, ← flatMap_map symbol code] at h
  exact (eq_of_flatMap_append_eq code_prefixFree hr hr' h).2

theorem ZeroPadded.not_wellFormed {data : List UInt8} (h : ZeroPadded data) : ¬WellFormed data := by
  obtain ⟨word, r, hdata, hr, -, hzero⟩ := h
  rintro ⟨word', pad, hdata', hpad⟩
  obtain rfl := stream_append_inj hr (open_ones hpad) (hdata.symm.trans hdata')
  exact absurd (eq_of_mem_replicate hzero) (by decide)

/-- The decoder is strict but for the value of the padding bits. -/
theorem accepts_iff_wellFormed_iff (W : ℕ) (hW : W ∈ [1, 2, 4]) (data : List UInt8) :
    ((∃ word, decode W data = .ok word) ↔ WellFormed data) ↔ ¬ZeroPadded data := by
  constructor
  · intro hstrict hpadded
    obtain ⟨word, r, hdata, hr, hlen, -⟩ := id hpadded
    exact hpadded.not_wellFormed
      (hstrict.1 ⟨word, (decode_eq_ok_iff hW).2 ⟨r, hdata, hr, hlen⟩⟩)
  · intro hpadded
    constructor
    · rintro ⟨word, hdecode⟩
      obtain ⟨r, hdata, hr, hlen⟩ := (decode_eq_ok_iff hW).1 hdecode
      have hones : r = List.replicate r.length true := by
        refine eq_replicate_iff.2 ⟨rfl, fun b hb => ?_⟩
        cases b with
        | true => rfl
        | false => exact absurd ⟨word, r, hdata, hr, hlen, hb⟩ hpadded
      exact ⟨word, r.length, by rw [← hones]; exact hdata, hlen⟩
    · rintro ⟨word, pad, hdata, hpad⟩
      exact ⟨word, (decode_eq_ok_iff hW).2
        ⟨_, hdata, open_ones hpad, by rwa [length_replicate]⟩⟩

/-- The letter `a` with three ones behind it. -/
theorem accepts_iff_wellFormed_letter :
    (∃ word, decode 4 [0x1F] = .ok word) ↔ WellFormed [0x1F] := by
  refine (accepts_iff_wellFormed_iff 4 (by decide) [0x1F]).2 ?_
  rintro ⟨word, r, hdata, hr, -, hzero⟩
  have hletter : bitsOf [0x1F] = stream [97] ++ List.replicate 3 true := by decide +kernel
  obtain rfl := stream_append_inj hr (open_ones (by decide)) (hdata.symm.trans hletter)
  exact absurd (eq_of_mem_replicate hzero) (by decide)

/-- The letter `a` with three zeros behind it. -/
theorem zero_padding_accepted : decode 4 [0x18] = .ok [97] ∧ ¬WellFormed [0x18] := by
  have hdata : bitsOf [0x18] = stream [97] ++ [false, false, false] := by decide +kernel
  have hopen : Open code [false, false, false] := ⟨48, by decide +kernel, by decide +kernel⟩
  refine ⟨(decode_eq_ok_iff (by decide)).2 ⟨_, hdata, hopen, by decide⟩, ?_⟩
  exact ZeroPadded.not_wellFormed ⟨[97], _, hdata, hopen, by decide, by decide⟩

end Strict

end Congelado.Codec.Huffman
