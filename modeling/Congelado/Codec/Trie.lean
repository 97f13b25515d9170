import Congelado.Codec.Huffman

/-!
# The trie of the codes

A node of the trie stands for the bits on the way to it. `Labelled` lists these paths, in the
order of the nodes, and says that they determine the children; each step of `build_trie` keeps
it (`Labelled.threadBits`). At the end the paths are the beginnings of the codes and the symbols
stand at the ends (`exists_spells`), so a walk through the trie is a reading of the bits as codes
(`Spells.walkBits_eq_some_iff`).
-/

namespace Congelado.Codec.Huffman

open PrefixCode List

variable {trie : Trie} {cur : ℕ}

/-! ### The codes are a prefix code -/

section Codes

/-- The code `a` begins the code `b`. -/
def Begins (a b : ℕ × ℕ) : Prop := a.2 ≤ b.2 ∧ b.1 >>> (b.2 - a.2) = a.1

instance (a b : ℕ × ℕ) : Decidable (Begins a b) := inferInstanceAs (Decidable (_ ∧ _))

theorem codes_valid : ∀ entry ∈ codes, entry.1 < 2 ^ entry.2 ∧ 5 ≤ entry.2 ∧ entry.2 ≤ 30 := by
  decide +kernel

theorem codes_pairwise : codes.Pairwise fun a b => ¬Begins a b ∧ ¬Begins b a := by
  decide +kernel

theorem length_codes : codes.length = 257 := by decide +kernel

variable (sym : Fin 257)

/-- The entry of a symbol. -/
theorem exists_entry :
    ∃ entry, codes[sym.val]? = some entry ∧ codes.getD sym (0, 0) = entry ∧
      code sym = bits entry.2 entry.1 ∧ entry.1 < 2 ^ entry.2 ∧ 5 ≤ entry.2 ∧ entry.2 ≤ 30 := by
  have hlt : sym.val < codes.length := sym.isLt.trans_eq length_codes.symm
  have hget : codes.getD sym (0, 0) = codes[sym.val] := by
    rw [getD_eq_getElem?_getD, getElem?_eq_getElem hlt, Option.getD_some]
  refine ⟨codes[sym.val], getElem?_eq_getElem hlt, hget, ?_, ?_⟩
  · rw [code, hget]
  · exact codes_valid _ (getElem_mem hlt)

theorem length_code : 5 ≤ (code sym).length ∧ (code sym).length ≤ 30 := by
  obtain ⟨entry, -, -, hcode, -, hlen⟩ := exists_entry sym
  rwa [hcode, length_bits]

theorem code_ne_nil : code sym ≠ [] := by
  intro h
  have := (length_code sym).1
  rw [h] at this
  exact absurd this (by decide)

theorem code_prefixFree : PrefixFree code := by
  intro a b hprefix
  obtain ⟨ea, hga, -, hca, hva, -⟩ := exists_entry a
  obtain ⟨eb, hgb, -, hcb, hvb, -⟩ := exists_entry b
  rw [hca, hcb] at hprefix
  have hbegins : Begins ea eb := shiftRight_eq_of_prefix_bits hva hvb hprefix
  obtain ⟨hlta, rfl⟩ := List.getElem?_eq_some_iff.1 hga
  obtain ⟨hltb, rfl⟩ := List.getElem?_eq_some_iff.1 hgb
  have hpair := pairwise_iff_getElem.1 codes_pairwise
  obtain hlt | heq | hlt := lt_trichotomy a.val b.val
  · exact absurd hbegins (hpair _ _ hlta hltb hlt).1
  · exact Fin.ext heq
  · exact absurd hbegins (hpair _ _ hltb hlta hlt).2

end Codes

/-! ### Paths -/

section Labelled

namespace Trie

@[simp] theorem length_setChild (trie : Trie) (node : ℕ) (bit : Bool) (next : ℕ) :
    (trie.setChild node bit next).length = trie.length := length_modify _ _ _

@[simp] theorem length_setSym (trie : Trie) (node sym : ℕ) :
    (trie.setSym node sym).length = trie.length := length_modify _ _ _

theorem getElem?_modify (trie : Trie) (node n : ℕ) (f : TrieNode → TrieNode) :
    (trie.modify node f)[n]? = if n = node then trie[n]?.map f else trie[n]? := by
  rw [List.getElem?_modify]
  by_cases hn : n = node
  · subst hn
    simp only [if_pos]
    rfl
  · simp only [if_neg hn, if_neg (Ne.symm hn)]
    exact id_map _

/-- A node with a new child. -/
theorem child_grow {node : ℕ} (hnode : node < trie.length) (bit : Bool) (next n : ℕ) (b : Bool) :
    Trie.child (trie.setChild node bit next ++ [({} : TrieNode)]) n b =
      if n = node ∧ b = bit then some next else trie.child n b := by
  rw [child, child]
  obtain hlt | rfl | hgt := lt_trichotomy n trie.length
  · rw [getElem?_append_left (by simpa using hlt), setChild, getElem?_modify]
    by_cases hn : n = node
    · subst hn
      rw [if_pos rfl, getElem?_eq_getElem hlt]
      by_cases hb : b = bit
      · subst hb
        simp
      · simp [hb]
    · rw [if_neg hn, if_neg (fun h => hn h.1)]
  · rw [getElem?_append_right (by simp), if_neg (fun h => hnode.ne h.1.symm)]
    simp
  · rw [getElem?_eq_none (by simpa using hgt), if_neg (fun h => by omega),
      getElem?_eq_none hgt.le]

theorem sym_grow (trie : Trie) (node : ℕ) (bit : Bool) (next n : ℕ) :
    Trie.sym (trie.setChild node bit next ++ [({} : TrieNode)]) n = trie.sym n := by
  rw [sym, sym]
  obtain hlt | rfl | hgt := lt_trichotomy n trie.length
  · rw [getElem?_append_left (by simpa using hlt), setChild, getElem?_modify]
    by_cases hn : n = node
    · rw [if_pos hn]
      cases trie[n]? <;> rfl
    · rw [if_neg hn]
  · rw [getElem?_append_right (by simp)]
    simp
  · rw [getElem?_eq_none (by simpa using hgt), getElem?_eq_none hgt.le]

theorem child_setSym (trie : Trie) (node sym n : ℕ) (b : Bool) :
    Trie.child (trie.setSym node sym) n b = trie.child n b := by
  rw [child, child, setSym, getElem?_modify]
  by_cases hn : n = node
  · rw [if_pos hn]
    cases trie[n]? <;> rfl
  · rw [if_neg hn]

theorem sym_setSym {node : ℕ} (hnode : node < trie.length) (s n : ℕ) :
    Trie.sym (trie.setSym node s) n = if n = node then some s else trie.sym n := by
  rw [sym, sym, setSym, getElem?_modify]
  by_cases hn : n = node
  · subst hn
    rw [if_pos rfl, if_pos rfl, getElem?_eq_getElem hnode]
    rfl
  · rw [if_neg hn, if_neg hn]

end Trie

/-- The paths to the nodes of a trie. -/
structure Labelled (trie : Trie) (paths : List (List Bool)) : Prop where
  length : paths.length = trie.length
  root : paths[0]? = some []
  nodup : paths.Nodup
  child : ∀ {n p}, paths[n]? = some p → ∀ bit m,
    trie.child n bit = some m ↔ paths[m]? = some (p ++ [bit])
  closed : ∀ p bit, p ++ [bit] ∈ paths → p ∈ paths

namespace Labelled

variable {paths : List (List Bool)} {p : List Bool}

section

variable (h : Labelled trie paths)

include h

theorem lt {n : ℕ} (hn : paths[n]? = some p) :
    n < trie.length := by
  rw [← h.length]
  exact (List.getElem?_eq_some_iff.1 hn).1

theorem inj {n m : ℕ} (hn : paths[n]? = some p) (hm : paths[m]? = some p) : n = m := by
  obtain ⟨hltn, hpn⟩ := List.getElem?_eq_some_iff.1 hn
  obtain ⟨hltm, hpm⟩ := List.getElem?_eq_some_iff.1 hm
  exact (h.nodup.getElem_inj_iff).1 (hpn.trans hpm.symm)

theorem child_eq_none_iff {n : ℕ}
    (hn : paths[n]? = some p) (bit : Bool) : trie.child n bit = none ↔ p ++ [bit] ∉ paths := by
  rw [Option.eq_none_iff_forall_not_mem, mem_iff_getElem?]
  simp only [Option.mem_def, h.child hn, not_exists]

/-- A new node. -/
theorem grow (hcur : paths[cur]? = some p) {bit : Bool} (hnew : p ++ [bit] ∉ paths) :
    Labelled (trie.setChild cur bit trie.length ++ [({} : TrieNode)]) (paths ++ [p ++ [bit]]) where
  length := by simp [h.length]
  root := by
    rw [getElem?_append_left, h.root]
    rw [h.length]
    exact (Nat.zero_le cur).trans_lt (h.lt hcur)
  nodup := nodup_append'.2 ⟨h.nodup, nodup_singleton _, by simpa using hnew⟩
  child := by
    intro n q hn b m
    rw [Trie.child_grow (h.lt hcur)]
    by_cases hlt : n < paths.length
    · -- an old node: its children are the old ones, but for the new child of `cur`
      rw [getElem?_append_left hlt] at hn
      by_cases hnew' : n = cur ∧ b = bit
      · obtain ⟨rfl, rfl⟩ := hnew'
        obtain rfl := Option.some.inj (hcur.symm.trans hn)
        rw [if_pos ⟨rfl, rfl⟩, Option.some_inj]
        constructor
        · rintro rfl
          rw [← h.length, getElem?_append_right le_rfl, Nat.sub_self]
          rfl
        · intro hm
          by_contra hne
          by_cases hltm : m < paths.length
          · rw [getElem?_append_left hltm] at hm
            exact hnew (mem_of_getElem? hm)
          · have := (List.getElem?_eq_some_iff.1 hm).1
            rw [length_append, length_singleton, h.length] at this
            rw [h.length] at hltm
            omega
      · rw [if_neg hnew', h.child hn]
        by_cases hltm : m < paths.length
        · rw [getElem?_append_left hltm]
        · rw [getElem?_eq_none (Nat.le_of_not_lt hltm)]
          refine iff_of_false (fun h => nomatch h) fun hm => hnew' ?_
          rw [getElem?_append_right (Nat.le_of_not_lt hltm)] at hm
          have hmem := mem_of_getElem? hm
          obtain ⟨rfl, hb⟩ := append_inj' (mem_singleton.1 hmem) rfl
          exact ⟨h.inj hn hcur, head_eq_of_cons_eq hb⟩
    · -- the new node has no children
      rw [getElem?_append_right (Nat.le_of_not_lt hlt)] at hn
      obtain rfl : q = p ++ [bit] := mem_singleton.1 (mem_of_getElem? hn)
      rw [h.length] at hlt
      have hnone : trie.child n b = none := by
        rw [Trie.child, getElem?_eq_none (Nat.le_of_not_lt hlt), Option.bind_none]
      rw [if_neg (fun hc : n = cur ∧ b = bit => hlt (hc.1 ▸ h.lt hcur)), hnone]
      refine iff_of_false (fun h => nomatch h) fun hm => ?_
      obtain hmem | hmem := mem_append.1 (mem_of_getElem? hm)
      · exact hnew (h.closed _ _ hmem)
      · have := congrArg List.length (mem_singleton.1 hmem)
        simp at this
  closed := by
    intro q b hq
    obtain hq | hq := mem_append.1 hq
    · exact mem_append_left _ (h.closed q b hq)
    · obtain ⟨rfl, -⟩ := append_inj' (mem_singleton.1 hq) rfl
      exact mem_append_left _ (mem_of_getElem? hcur)

theorem setSym (node sym : ℕ) :
    Labelled (trie.setSym node sym) paths where
  length := by rw [h.length, Trie.length_setSym]
  root := h.root
  nodup := h.nodup
  child := by
    intro n p hn b m
    rw [Trie.child_setSym, h.child hn]
  closed := h.closed

/-- A code is threaded in below a node: the nodes on its way are there then, and no other new
ones. -/
theorem threadBits (hcur : paths[cur]? = some p) (code : List Bool) :
    ∃ paths', Labelled (trie.threadBits cur code).1 paths' ∧ paths <+: paths' ∧
      paths'[(trie.threadBits cur code).2]? = some (p ++ code) ∧
      (∀ q, q ∈ paths' ↔ q ∈ paths ∨ ∃ r, r <+: code ∧ q = p ++ r) ∧
      ∀ n, (trie.threadBits cur code).1.sym n = trie.sym n := by
  induction code generalizing trie paths cur p with
  | nil =>
    refine ⟨paths, h, prefix_rfl, by rwa [append_nil], fun q => ?_, fun _ => rfl⟩
    constructor
    · exact .inl
    · rintro (hq | ⟨r, hr, rfl⟩)
      · exact hq
      · rw [prefix_nil.1 hr, append_nil]
        exact mem_of_getElem? hcur
  | cons bit code ih =>
    rw [Trie.threadBits]
    -- the node for `bit` is there or is made; the paths behind it are those of the rest
    have hmem (paths' : List (List Bool)) (q : List Bool) (hpaths : ∀ q, q ∈ paths' ↔
        q ∈ paths ∨ q = p ++ [bit]) :
        (q ∈ paths' ∨ ∃ r, r <+: code ∧ q = p ++ [bit] ++ r) ↔
          q ∈ paths ∨ ∃ r, r <+: bit :: code ∧ q = p ++ r := by
      rw [hpaths]
      constructor
      · rintro ((hq | rfl) | ⟨r, hr, rfl⟩)
        · exact .inl hq
        · exact .inr ⟨[bit], by simp, rfl⟩
        · exact .inr ⟨bit :: r, by simpa using hr, by simp⟩
      · rintro (hq | ⟨r, hr, rfl⟩)
        · exact .inl (.inl hq)
        · cases r with
          | nil => exact .inl (.inl (by simpa using mem_of_getElem? hcur))
          | cons b r =>
            obtain ⟨rfl, hr'⟩ := cons_prefix_cons.1 hr
            exact .inr ⟨r, hr', by simp⟩
    cases hchild : trie.child cur bit with
    | some next =>
      have hnext := (h.child hcur bit next).1 hchild
      obtain ⟨paths', hlab, hpre, hend, hpaths, hsym⟩ := ih h hnext
      refine ⟨paths', hlab, hpre, by simpa using hend, fun q => ?_, hsym⟩
      rw [hpaths, hmem paths q fun q => ?_]
      constructor
      · exact .inl
      · rintro (hq | rfl)
        · exact hq
        · exact mem_of_getElem? hnext
    | none =>
      have hgrow := h.grow hcur ((h.child_eq_none_iff hcur bit).1 hchild)
      have hnext : (paths ++ [p ++ [bit]])[trie.length]? = some (p ++ [bit]) := by
        rw [← h.length, getElem?_append_right le_rfl, Nat.sub_self]
        rfl
      obtain ⟨paths', hlab, hpre, hend, hpaths, hsym⟩ := ih hgrow hnext
      refine ⟨paths', hlab, (prefix_append _ _).trans hpre, by simpa using hend, fun q => ?_,
        fun n => ?_⟩
      · rw [hpaths, hmem _ q fun q => ?_]
        rw [mem_append, mem_singleton]
      · rw [hsym, Trie.sym_grow]

end

end Labelled

end Labelled

/-! ### The trie of all codes -/

section Spells

variable {paths : List (List Bool)}

/-- The trie of a set of symbols: its paths are the beginnings of their codes, with the symbols at
the ends. -/
structure Spells (trie : Trie) (paths : List (List Bool)) (syms : Fin 257 → Prop) : Prop
    extends Labelled trie paths where
  mem : ∀ q, q ∈ paths ↔ q = [] ∨ ∃ s, syms s ∧ q <+: code s
  sym : ∀ {n q}, paths[n]? = some q → ∀ k, trie.sym n = some k ↔ ∃ s, syms s ∧ s.val = k ∧
    q = code s

/-- One code more. -/
theorem Spells.threadCode {syms : Fin 257 → Prop} (h : Spells trie paths syms) (new : Fin 257) :
    ∃ paths', Spells (trie.threadCode new (code new)) paths' fun s => syms s ∨ s = new := by
  obtain ⟨paths', hlab, hpre, hend, hpaths, hsym⟩ := h.toLabelled.threadBits h.root (code new)
  rw [nil_append] at hend
  refine ⟨paths', hlab.setSym _ _, fun q => ?_, fun {n q} hn k => ?_⟩
  · rw [hpaths, h.mem]
    constructor
    · rintro ((rfl | ⟨s, hs, hq⟩) | ⟨r, hr, rfl⟩)
      · exact .inl rfl
      · exact .inr ⟨s, .inl hs, hq⟩
      · exact .inr ⟨new, .inr rfl, hr⟩
    · rintro (rfl | ⟨s, hs | rfl, hq⟩)
      · exact .inl (.inl rfl)
      · exact .inl (.inr ⟨s, hs, hq⟩)
      · exact .inr ⟨q, hq, rfl⟩
  · show Trie.sym (Trie.setSym _ _ _) n = _ ↔ _
    rw [Trie.sym_setSym (hlab.lt hend), hsym]
    by_cases hleaf : n = (trie.threadBits 0 (code new)).2
    · -- the end of the new code
      subst hleaf
      obtain rfl := Option.some.inj (hend.symm.trans hn)
      rw [if_pos rfl, Option.some_inj]
      constructor
      · rintro rfl
        exact ⟨new, .inr rfl, rfl, rfl⟩
      · rintro ⟨s, -, rfl, hq⟩
        rw [code_prefixFree new s (hq ▸ prefix_rfl)]
    · rw [if_neg hleaf]
      have hne : q ≠ code new := by
        rintro rfl
        exact hleaf (hlab.inj hn hend)
      by_cases hlt : n < paths.length
      · have hold : paths[n]? = some q := by
          obtain ⟨more, rfl⟩ := hpre
          rwa [getElem?_append_left hlt] at hn
        rw [h.sym hold]
        constructor
        · rintro ⟨s, hs, hk, hq⟩
          exact ⟨s, .inl hs, hk, hq⟩
        · rintro ⟨s, hs | rfl, hk, hq⟩
          · exact ⟨s, hs, hk, hq⟩
          · exact absurd hq hne
      · -- a new node on the way has no symbol, and is not the end of an older code
        have hnone : trie.sym n = none := by
          rw [Trie.sym, getElem?_eq_none (h.length ▸ Nat.le_of_not_lt hlt), Option.bind_none]
        rw [hnone]
        refine iff_of_false (fun h => nomatch h) ?_
        rintro ⟨s, hs | rfl, -, rfl⟩
        · have hmem : code s ∈ paths := (h.mem _).2 (.inr ⟨s, hs, prefix_rfl⟩)
          obtain ⟨m, hm⟩ := mem_iff_getElem?.mp hmem
          have hltm := (List.getElem?_eq_some_iff.1 hm).1
          obtain ⟨more, rfl⟩ := hpre
          have := hlab.inj hn ((getElem?_append_left hltm).trans hm)
          omega
        · exact hne rfl

/-- The trie that `build_trie` returns is the one of all symbols. -/
theorem exists_spells : ∃ paths, Spells buildTrie paths fun _ => True := by
  -- the symbols are threaded one by one, from a root alone
  suffices h : ∀ (todo : List (Fin 257)) (trie : Trie) (paths : List (List Bool))
      (syms : Fin 257 → Prop), Spells trie paths syms →
      ∃ paths', Spells
        (todo.foldl (fun trie (sym : Fin 257) => trie.threadCode sym (code sym)) trie)
        paths' fun s => syms s ∨ s ∈ todo by
    have hempty : Spells [{}] [[]] fun _ => False := by
      refine ⟨⟨rfl, rfl, nodup_singleton _, ?_, ?_⟩, ?_, ?_⟩
      · intro n p hn bit m
        have hp : p = [] := mem_singleton.1 (mem_of_getElem? hn)
        have hchild : Trie.child [{}] n bit = none := by
          obtain rfl : n = 0 := by simpa using (List.getElem?_eq_some_iff.1 hn).1
          rfl
        rw [hchild]
        refine iff_of_false (fun h => nomatch h) fun hm => ?_
        have := mem_singleton.1 (mem_of_getElem? hm)
        simp at this
      · intro p bit hp
        simp at hp
      · intro q
        simp
      · intro n q hn k
        obtain rfl : n = 0 := by simpa using (List.getElem?_eq_some_iff.1 hn).1
        refine iff_of_false (fun h => nomatch h) ?_
        rintro ⟨s, hs, -⟩
        exact hs
    obtain ⟨paths, hspells⟩ := h (List.finRange 257) [{}] [[]] _ hempty
    have hall : (fun s => False ∨ s ∈ List.finRange 257) = fun _ => True := by
      funext s
      simp
    rw [hall] at hspells
    exact ⟨paths, hspells⟩
  intro todo
  induction todo with
  | nil =>
    intro trie paths syms h
    refine ⟨paths, ?_⟩
    simpa using h
  | cons new todo ih =>
    intro trie paths syms h
    obtain ⟨paths', h'⟩ := h.threadCode new
    obtain ⟨paths'', h''⟩ := ih _ _ _ h'
    refine ⟨paths'', ?_⟩
    have hsyms : (fun s => syms s ∨ s ∈ new :: todo) = fun s => (syms s ∨ s = new) ∨ s ∈ todo := by
      funext s
      rw [mem_cons, or_assoc]
    rwa [hsyms]

/-- A walk through the trie reads the bits as codes, from within an open one. -/
theorem Spells.walkBits_eq_some_iff
    (h : Spells trie paths fun _ => True) {chunk p : List Bool} {cur' : ℕ}
    {emitted emitted' : Option ℕ} (hcur : paths[cur]? = some p) (hp : Open code p) :
    walkBits trie chunk cur emitted = some (cur', emitted') ↔
      ∃ (word : List (Fin 257)) (r : List Bool), p ++ chunk = word.flatMap code ++ r ∧
        Open code r ∧ paths[cur']? = some r ∧
        emitted' = (word.getLast?.map Fin.val).or emitted := by
  induction chunk generalizing cur p emitted with
  | nil =>
    rw [walkBits]
    constructor
    · intro hwalk
      obtain ⟨rfl, rfl⟩ := Prod.mk.inj (Option.some.inj hwalk)
      exact ⟨[], p, by simp, hp, hcur, rfl⟩
    · rintro ⟨word, r, hparse, hr, hcur', rfl⟩
      have hnil : ([] : List (Fin 257)).flatMap code ++ p = word.flatMap code ++ r := by
        simpa using hparse
      obtain ⟨rfl, rfl⟩ := eq_of_flatMap_append_eq code_prefixFree hp hr hnil
      rw [h.inj hcur hcur']
      rfl
  | cons bit chunk ih =>
    rw [walkBits]
    cases hchild : trie.child cur bit with
    | none =>
      -- no code goes on like this
      have hnot := (h.child_eq_none_iff hcur bit).1 hchild
      refine iff_of_false (fun h => nomatch h) ?_
      rintro ⟨word, r, hparse, hr, -⟩
      obtain ⟨s, hs⟩ := exists_code_of_flatMap_append code_prefixFree hp hr hparse
      exact hnot ((h.mem _).2 (.inr ⟨s, trivial, hs⟩))
    | some next =>
      have hnext := (h.child hcur bit next).1 hchild
      cases hsym : trie.sym next with
      | none =>
        have hopen : Open code (p ++ [bit]) := by
          obtain hnil | ⟨s, -, hs⟩ := (h.mem _).1 (mem_of_getElem? hnext)
          · exact absurd hnil (by simp)
          · refine ⟨s, hs, fun heq => ?_⟩
            rw [(h.sym hnext s).2 ⟨s, trivial, rfl, heq⟩] at hsym
            exact nomatch hsym
        simp only [hsym]
        rw [ih hnext hopen, append_assoc, singleton_append]
      | some k =>
        obtain ⟨s, -, rfl, hs⟩ := (h.sym hnext k).1 hsym
        have hsplit : p ++ bit :: chunk = code s ++ chunk := by
          rw [← hs, append_assoc, singleton_append]
        have hlast (word : List (Fin 257)) : ((s :: word).getLast?.map Fin.val).or emitted =
            (word.getLast?.map Fin.val).or (some s.val) := by
          rw [getLast?_cons]
          cases word.getLast? <;> rfl
        simp only [hsym]
        rw [ih h.root (Open.nil (code_ne_nil s)), nil_append, hsplit]
        constructor
        · rintro ⟨word, r, rfl, hr, hcur', rfl⟩
          exact ⟨s :: word, r, by rw [flatMap_cons, append_assoc], hr, hcur',
            (hlast word).symm⟩
        · rintro ⟨word, r, hparse, hr, hcur', rfl⟩
          obtain ⟨word', rfl, hparse'⟩ := exists_eq_cons code_prefixFree hr hparse
          exact ⟨word', r, hparse', hr, hcur', hlast word'⟩

end Spells

end Congelado.Codec.Huffman
