import Mathlib.Data.List.Basic
import Mathlib.Tactic

/-!
# The Swiss table

`SwissHashMap` has a control byte for each slot: `EMPTY`, `DELETED`, or a fingerprint of the key
that is stored there. The slots are in groups of sixteen. A hash names a group and a fingerprint.
A lookup goes through the groups from there on, up to the first one with an `EMPTY` byte, and an
insert takes the first slot that is not in use. Before a write the capacity is doubled if seven
eighths of it are in use.

So a lookup finds a key exactly if some slot has the fingerprint and an equal key, and no group that
is probed before has an `EMPTY` byte (`Kept.locate_isSome_iff`). A write finds a slot, since there
is always room (`Kept.upsert`).
-/

namespace Congelado

open List

/-- A slot with its control byte. A fingerprint is none of the bytes that mark a slot. -/
inductive Slot (K V : Type)
  | empty
  | deleted
  | full (fingerprint : Fin 0x7E) (key : K) (value : V)

/-- The map; its capacity is the number of slots. -/
structure SwissHashMap (K V : Type) where
  size : ℕ := 0
  slots : List (Slot K V) := []

variable {K V : Type}

namespace Slot

def isEmpty : Slot K V → Bool
  | empty => true
  | _ => false

def isFull : Slot K V → Bool
  | full .. => true
  | _ => false

/-- The fingerprint matches, and the key is equal. -/
def holds (fp : Fin 0x7E) (equal : K → Bool) : Slot K V → Bool
  | full fp' key _ => fp' = fp && equal key
  | _ => false

end Slot

namespace SwissHashMap

def h2 (hash : ℕ) : Fin 0x7E :=
  if h : hash &&& 0x7F < 0x7E then ⟨hash &&& 0x7F, h⟩
  else if hash &&& 0x7F = 0x7E then 0x7D
  else 0x7C

section Calls

variable (map : SwissHashMap K V)

abbrev capacity : ℕ := map.slots.length

abbrev groups : ℕ := map.capacity / 16

def h1 (hash : ℕ) : ℕ := (hash >>> 7) % map.groups

/-- The groups in the order in which they are probed. -/
def probes (hash : ℕ) : List ℕ :=
  (range map.groups).map fun probe => (map.h1 hash + probe) % map.groups

def group (cur : ℕ) : List (Slot K V) := (map.slots.drop (cur * 16)).take 16

/-- The first slot of a group that matches. -/
def scan (p : Slot K V → Bool) (cur : ℕ) : Option ℕ :=
  ((map.group cur).findIdx? p).map (cur * 16 + ·)

/-- The loop of the lookups. -/
def seek (fp : Fin 0x7E) (equal : K → Bool) : List ℕ → Option ℕ
  | [] => none
  | cur :: rest =>
    match map.scan (Slot.holds fp equal) cur with
    | some i => some i
    | none => if (map.scan Slot.isEmpty cur).isSome then none else seek fp equal rest

/-- The slot of a key, by its hash and what it is equal to. -/
def locate (hash : ℕ) (equal : K → Bool) : Option ℕ :=
  map.seek (h2 hash) equal (map.probes hash)

def find (hash : ℕ) (equal : K → Bool) : Option V :=
  (map.locate hash equal).bind fun i =>
    match map.slots[i]? with
    | some (.full _ _ value) => some value
    | _ => none

/-- `none` is the exit of a table that is exhausted. -/
def insertImpl (hash : K → ℕ) (key : K) (value : V) : Option (SwissHashMap K V) :=
  ((map.probes (hash key)).findSome? (map.scan (!·.isFull))).map fun i =>
    ⟨map.size + 1, map.slots.set i (.full (h2 (hash key)) key value)⟩

/-- The entries are moved one by one. -/
def reinsert (hash : K → ℕ) : Slot K V → Option (SwissHashMap K V)
  | .full _ key value => map.insertImpl hash key value
  | _ => some map

def rehash (hash : K → ℕ) : Option (SwissHashMap K V) :=
  map.slots.foldlM (fun map => map.reinsert hash)
    { slots := replicate (if map.capacity = 0 then 256 else map.capacity * 2) .empty }

def grow (hash : K → ℕ) : Option (SwissHashMap K V) :=
  if map.capacity = 0 ∨ map.capacity * 7 / 8 ≤ map.size then map.rehash hash else some map

/-- The value is replaced, and the key is kept, if the key is there. -/
def upsert [DecidableEq K] (hash : K → ℕ) (key : K) (value : V) : Option (SwissHashMap K V) :=
  (map.grow hash).bind fun map =>
    match map.locate (hash key) (· = key) with
    | none => map.insertImpl hash key value
    | some i =>
      match map.slots[i]? with
      | some (.full fp key' _) => some { map with slots := map.slots.set i (.full fp key' value) }
      | _ => some map

/-- No group that is probed before has an `EMPTY` byte. -/
def Reaches (hash cur : ℕ) : Prop :=
  ∀ before ∈ (map.probes hash).takeWhile (· ≠ cur), (map.group before).any Slot.isEmpty = false

end Calls

variable {hash : K → ℕ} {map : SwissHashMap K V} {p : Slot K V → Bool} {cur i : ℕ}
  {slot : Slot K V} {key : K} {value : V} {R : K → V → Prop}

/-! ### Lookups -/

theorem scan_isSome (map : SwissHashMap K V) (p : Slot K V → Bool) (cur : ℕ) :
    (map.scan p cur).isSome = (map.group cur).any p := by
  rw [scan, Option.isSome_map, findIdx?_isSome]

theorem scan_some (h : map.scan p cur = some i) :
    ∃ slot, map.slots[i]? = some slot ∧ p slot = true := by
  obtain ⟨k, hk, rfl⟩ := Option.map_eq_some_iff.1 h
  obtain ⟨hlt, hp, -⟩ := findIdx?_eq_some_iff_getElem.1 hk
  refine ⟨_, ?_, hp⟩
  simp only [group, getElem_take, getElem_drop]
  exact List.getElem?_eq_getElem _

section Seek

variable {fp : Fin 0x7E} {equal : K → Bool} {groups : List ℕ}

/-- What is found is there, and is equal. -/
theorem seek_some (h : map.seek fp equal groups = some i) :
    ∃ key value, map.slots[i]? = some (.full fp key value) ∧ equal key = true := by
  induction groups with
  | nil => cases h
  | cons cur groups ih =>
    rw [seek] at h
    split at h
    · case h_1 hscan =>
      cases h
      obtain ⟨_ | _ | ⟨fp', key, value⟩, hslot, hholds⟩ := scan_some hscan
      · cases hholds
      · cases hholds
      · obtain ⟨hfp, hequal⟩ := Bool.and_eq_true_iff.1 hholds
        exact ⟨key, value, of_decide_eq_true hfp ▸ hslot, hequal⟩
    · split_ifs at h
      exact ih h

/-- A lookup ends with the first group that has the key, or an `EMPTY` byte. -/
theorem seek_isSome_iff : (map.seek fp equal groups).isSome = true ↔ ∃ cur ∈ groups,
    (map.group cur).any (Slot.holds fp equal) = true ∧
      ∀ before ∈ groups.takeWhile (· ≠ cur), (map.group before).any Slot.isEmpty = false := by
  induction groups with
  | nil => simp [seek]
  | cons first groups ih =>
    have hheld := scan_isSome map (Slot.holds fp equal) first
    rw [seek]
    cases hscan : map.scan (Slot.holds fp equal) first with
    | some i =>
      rw [hscan] at hheld
      exact iff_of_true rfl ⟨first, .head _, hheld.symm, by simp⟩
    | none =>
      rw [hscan] at hheld
      -- the key is not in this group, so the probe has to go past it
      have hother : ∀ cur, (map.group cur).any (Slot.holds fp equal) = true → cur ≠ first := by
        rintro _ hcur rfl
        exact Bool.noConfusion (hheld.trans hcur)
      simp only [scan_isSome]
      split_ifs with hempty
      · refine iff_of_false nofun ?_
        rintro ⟨cur, -, hcur, hpast⟩
        rw [takeWhile_cons_of_pos (by simpa using (hother cur hcur).symm)] at hpast
        exact Bool.noConfusion (hempty.symm.trans (hpast first (.head _)))
      · refine ih.trans (exists_congr fun cur => ?_)
        rw [mem_cons]
        constructor
        · rintro ⟨hmem, hcur, hpast⟩
          refine ⟨.inr hmem, hcur, ?_⟩
          rw [takeWhile_cons_of_pos (by simpa using (hother cur hcur).symm), forall_mem_cons]
          exact ⟨by simpa using hempty, hpast⟩
        · rintro ⟨hmem, hcur, hpast⟩
          rw [takeWhile_cons_of_pos (by simpa using (hother cur hcur).symm)] at hpast
          exact ⟨hmem.resolve_left (hother cur hcur), hcur, (forall_mem_cons.1 hpast).2⟩

end Seek

/-- Every group is probed. -/
theorem mem_probes (n : ℕ) : cur ∈ map.probes n ↔ cur < map.groups := by
  rw [probes, mem_map]
  constructor
  · rintro ⟨probe, hprobe, rfl⟩
    exact Nat.mod_lt _ (Nat.zero_lt_of_lt (mem_range.1 hprobe))
  · intro h
    have hlt : map.h1 n < map.groups := Nat.mod_lt _ (by omega)
    refine ⟨(cur + map.groups - map.h1 n) % map.groups, mem_range.2 (Nat.mod_lt _ (by omega)), ?_⟩
    rw [Nat.add_mod_mod, Nat.add_sub_of_le (by omega), Nat.add_mod_right, Nat.mod_eq_of_lt h]

/-! ### Writes -/

/-- There are whole groups, the entries are counted, each has the fingerprint of its key, and at
most seven eighths of the slots are in use. -/
structure Kept (hash : K → ℕ) (R : K → V → Prop) (map : SwissHashMap K V) : Prop where
  groups : 16 ∣ map.capacity
  size : map.size = map.slots.countP Slot.isFull
  load : map.size ≤ map.capacity * 7 / 8
  entries : ∀ fp key value, .full fp key value ∈ map.slots → fp = h2 (hash key) ∧ R key value

namespace Kept

/-- A key is found exactly if a group has an equal key with the fingerprint of the hash, and the
probe gets there. -/
theorem locate_isSome_iff (h : Kept hash R map) {n : ℕ} {equal : K → Bool} :
    (map.locate n equal).isSome = true ↔ ∃ cur < map.groups, ∃ key value,
      .full (h2 (hash key)) key value ∈ map.group cur ∧ equal key = true ∧
        h2 (hash key) = h2 n ∧ map.Reaches n cur := by
  rw [locate, seek_isSome_iff]
  refine exists_congr fun cur => and_congr (mem_probes n) ⟨?_, ?_⟩
  · rintro ⟨hany, hreach⟩
    obtain ⟨_ | _ | ⟨fp, key, value⟩, hmem, hholds⟩ := any_eq_true.1 hany
    · cases hholds
    · cases hholds
    · obtain ⟨hfp, hequal⟩ := Bool.and_eq_true_iff.1 hholds
      have hkey := (h.entries fp key value (mem_of_mem_drop (mem_of_mem_take hmem))).1
      exact ⟨key, value, hkey ▸ hmem, hequal, hkey ▸ of_decide_eq_true hfp, hreach⟩
  · rintro ⟨key, value, hmem, hequal, hfp, hreach⟩
    exact ⟨any_eq_true.2 ⟨_, hmem, by simp [Slot.holds, hfp, hequal]⟩, hreach⟩

/-- What is found is the value of an equal key. -/
theorem find (h : Kept hash R map) (n : ℕ) (equal : K → Bool) :
    (map.find n equal).isSome = (map.locate n equal).isSome ∧
      ∀ value ∈ map.find n equal, ∃ key, equal key = true ∧ R key value := by
  rw [SwissHashMap.find]
  cases hlocate : map.locate n equal with
  | none => exact ⟨rfl, nofun⟩
  | some i =>
    obtain ⟨key, value, hslot, hequal⟩ := seek_some hlocate
    simp only [Option.bind_some, hslot]
    refine ⟨rfl, fun value' hvalue => ⟨key, hequal, ?_⟩⟩
    exact Option.some.inj hvalue ▸ (h.entries _ _ _ (mem_of_getElem? hslot)).2

/-- What is written into a slot is one more entry, unless the slot was in use. -/
theorem set (h : Kept hash R map) (hi : map.slots[i]? = some slot) (hR : R key value)
    (hload : map.size < map.capacity * 7 / 8) :
    Kept hash R ⟨map.size + if slot.isFull then 0 else 1,
      map.slots.set i (.full (h2 (hash key)) key value)⟩ := by
  obtain ⟨hlt, hget⟩ := List.getElem?_eq_some_iff.1 hi
  refine ⟨h.groups.trans (dvd_of_eq length_set.symm), ?_, ?_, fun fp key' value' hmem => ?_⟩
  · change _ + _ = countP Slot.isFull (map.slots.set i _)
    have hpos : slot.isFull = true → 0 < map.slots.countP Slot.isFull := fun hfull =>
      countP_pos_iff.2 ⟨slot, mem_of_getElem? hi, hfull⟩
    rw [countP_set hlt, hget, h.size, if_pos (show Slot.isFull (.full _ _ _) = true from rfl)]
    split_ifs with hfull
    · exact (Nat.sub_add_cancel (hpos hfull)).symm
    · rfl
  · change map.size + _ ≤ (map.slots.set i _).length * 7 / 8
    rw [length_set]
    change map.size < map.slots.length * 7 / 8 at hload
    split_ifs <;> omega
  · obtain hold | hnew := mem_or_eq_of_mem_set hmem
    · exact h.entries fp key' value' hold
    · cases hnew
      exact ⟨rfl, hR⟩

/-- An insert finds a slot. -/
theorem insertImpl (h : Kept hash R map) (hR : R key value)
    (hload : map.size < map.capacity * 7 / 8) :
    ∃ map', map.insertImpl hash key value = some map' ∧ Kept hash R map' ∧
      map'.capacity = map.capacity ∧ map'.size = map.size + 1 := by
  have hsome : (map.probes (hash key)).findSome? (map.scan (!·.isFull)) ≠ none := by
    intro hnone
    have hall : map.slots.countP Slot.isFull = map.capacity := by
      refine countP_eq_length.2 fun slot hslot => ?_
      obtain ⟨j, hj⟩ := mem_iff_getElem?.1 hslot
      have hlt := (List.getElem?_eq_some_iff.1 hj).1
      have hgroup : slot ∈ map.group (j / 16) := by
        refine mem_iff_getElem?.2 ⟨j % 16, ?_⟩
        rw [group, getElem?_take_of_lt (Nat.mod_lt _ (by decide)), getElem?_drop,
          Nat.div_add_mod', hj]
      have hscan := findSome?_eq_none_iff.1 hnone (j / 16)
        ((mem_probes _).2 (Nat.div_lt_div_of_lt_of_dvd h.groups hlt))
      have hfull := scan_isSome map (!·.isFull) (j / 16)
      rw [hscan] at hfull
      simpa using any_eq_false.1 hfull.symm slot hgroup
    have := h.size
    omega
  obtain ⟨i, hi⟩ := Option.ne_none_iff_exists'.1 hsome
  obtain ⟨cur, -, hscan⟩ := exists_of_findSome?_eq_some hi
  obtain ⟨slot, hslot, hfree⟩ := scan_some hscan
  have hset := h.set hslot hR hload
  rw [if_neg (by simpa using hfree)] at hset
  rw [SwissHashMap.insertImpl, hi]
  exact ⟨_, rfl, hset, length_set, rfl⟩

theorem empty {n : ℕ} (h : 16 ∣ n) :
    Kept hash R ({ slots := replicate n .empty } : SwissHashMap K V) where
  groups := h.trans (dvd_of_eq length_replicate.symm)
  size := (countP_eq_zero.2 fun slot hslot => by rw [eq_of_mem_replicate hslot]; exact nofun).symm
  load := Nat.zero_le _
  entries fp key value hmem := by cases eq_of_mem_replicate hmem

/-- The entries of a table go into one that has room for them. -/
theorem foldlM (h : Kept hash R map) {slots : List (Slot K V)}
    (hslots : ∀ fp key value, .full fp key value ∈ slots → R key value)
    (hload : map.size + slots.countP Slot.isFull < map.capacity * 7 / 8) :
    ∃ map', slots.foldlM (fun map => map.reinsert hash) map = some map' ∧ Kept hash R map' ∧
      map'.capacity = map.capacity ∧ map'.size = map.size + slots.countP Slot.isFull := by
  induction slots generalizing map with
  | nil => exact ⟨map, rfl, h, rfl, rfl⟩
  | cons slot slots ih =>
    have hrest := fun fp key value hmem => hslots fp key value (.tail _ hmem)
    rw [countP_cons] at hload ⊢
    cases slot with
    | empty | deleted => exact ih h hrest hload
    | full fp key value =>
      change map.size + (_ + 1) < _ at hload
      obtain ⟨next, hnext, hkept, hcapacity, hsize⟩ :=
        h.insertImpl (hslots fp key value (.head _)) (by omega)
      obtain ⟨map', hfold, hkept', hcapacity', hsize'⟩ :=
        ih hkept hrest (by rw [hsize, hcapacity]; omega)
      rw [foldlM_cons, reinsert, hnext]
      refine ⟨map', hfold, hkept', hcapacity'.trans hcapacity, ?_⟩
      change map'.size = map.size + (_ + 1)
      omega

/-- After the table has grown there is room. -/
theorem grow (h : Kept hash R map) : ∃ map', map.grow hash = some map' ∧ Kept hash R map' ∧
    map'.size < map'.capacity * 7 / 8 := by
  have hload := h.load
  rw [SwissHashMap.grow]
  split_ifs with hgrow
  · obtain ⟨n, hn, hdvd, hlt⟩ : ∃ n, (if map.capacity = 0 then 256 else map.capacity * 2) = n ∧
        16 ∣ n ∧ map.size < n * 7 / 8 := by
      have hgroups := h.groups
      split_ifs
      · exact ⟨256, rfl, by decide, by omega⟩
      · exact ⟨_, rfl, hgroups.mul_right 2, by omega⟩
    have hcapacity : ({ slots := replicate n .empty } : SwissHashMap K V).capacity = n :=
      length_replicate
    have hempty : Kept hash R ({ slots := replicate n .empty } : SwissHashMap K V) := .empty hdvd
    obtain ⟨map', hfold, hkept, hcapacity', hsize⟩ := hempty.foldlM
      (fun fp key value hmem => (h.entries fp key value hmem).2)
      (by rw [← h.size, hcapacity, Nat.zero_add]; exact hlt)
    rw [← h.size, Nat.zero_add] at hsize
    rw [rehash, hn]
    exact ⟨map', hfold, hkept, by rwa [hsize, hcapacity', hcapacity]⟩
  · exact ⟨map, rfl, h, by omega⟩

theorem upsert [DecidableEq K] (h : Kept hash R map) (hR : R key value) :
    ∃ map', map.upsert hash key value = some map' ∧ Kept hash R map' := by
  obtain ⟨grown, hgrow, hkept, hload⟩ := h.grow
  rw [SwissHashMap.upsert, hgrow, Option.bind_some]
  cases hlocate : grown.locate (hash key) (· = key) with
  | none =>
    obtain ⟨map', hnext, hkept', -⟩ := hkept.insertImpl hR hload
    exact ⟨map', hnext, hkept'⟩
  | some i =>
    obtain ⟨key', value', hi, hequal⟩ := seek_some hlocate
    obtain rfl := of_decide_eq_true hequal
    simp only [hi]
    exact ⟨_, rfl, hkept.set hi hR hload⟩

end Kept

end SwissHashMap

end Congelado
