import Mathlib

/-!
# The signal tree

The contracts that are ready to run are bits in the leaves of a tree of two levels. A leaf is a
word of 64 bits. A router has eight leaves, and a word whose bytes count the bits of each. `next`
looks at the counters first, prefers a branch by the bits of a bias that the caller keeps, and
goes through the other branches if the leaf it preferred is empty.

What the counters are for is that `next` finds a contract whenever there is one. That holds while
the tree is `Counted`: each byte is the number of bits of its leaf. Putting in an id that is not
there and taking out one that is keep it so; the two other ways of calling them do not.
-/

namespace Congelado.Contract

open Function

variable {value bias : BitVec 64} {i : Fin 8} {children : Fin 8 → BitVec 64}

/-! ### Ids -/

/-- The ids of a group with `n` routers, whose capacity is `512 * n`. -/
abbrev Id (n : ℕ) := Fin (512 * n)

namespace Id

variable {n : ℕ} (id : Id n)

def router : Fin n := ⟨id / 512, Nat.div_lt_of_lt_mul id.isLt⟩

def branch : Fin 8 := Fin.ofNat 8 (id / 64)

def bit : Fin 64 := Fin.ofNat 64 id

/-- The id that `select_child_index` puts together on its way down. -/
def of (router : Fin n) (branch : Fin 8) (bit : Fin 64) : Id n :=
  ⟨512 * router + 64 * branch + bit, by omega⟩

variable (r : Fin n)

@[simp] theorem router_of (b : Fin 8) (k : Fin 64) : (of r b k).router = r := by
  ext
  simp only [router, of]
  omega

@[simp] theorem branch_of (b : Fin 8) (k : Fin 64) : (of r b k).branch = b := by
  ext
  simp only [branch, of, Fin.ofNat]
  omega

@[simp] theorem bit_of (b : Fin 8) (k : Fin 64) : (of r b k).bit = k := by
  ext
  simp only [bit, of, Fin.ofNat]
  omega

/-- Where the bit of an id stands determines the id. -/
theorem eq_of_place {i j : Id n} (hr : i.router = j.router) (hb : i.branch = j.branch)
    (hk : i.bit = j.bit) : i = j := by
  simp only [router, branch, bit, Fin.ofNat, Fin.mk.injEq] at hr hb hk
  ext
  omega

end Id

/-! ### Words -/

variable (i)

/-- The byte of a router's word that counts the branch `i`. -/
def counter (value : BitVec 64) : BitVec 8 := value.extractLsb' (8 * i) 8

def byteMask : BitVec 64 := 255#64 <<< (8 * i.val)

def setCounter (count : BitVec 8) (value : BitVec 64) : BitVec 64 :=
  (value &&& ~~~byteMask i) ||| (count.setWidth 64 <<< (8 * i.val))

/-- The counter of a branch is raised, up to the number of bits of a leaf. -/
def raise (value : BitVec 64) : BitVec 64 :=
  if 64 ≤ (counter i value).toNat then value else setCounter i (counter i value + 1) value

/-- The counter of a branch is lowered, if it is not zero. -/
def lower (value : BitVec 64) : BitVec 64 :=
  if counter i value = 0 then value else setCounter i (counter i value - 1) value

def setBit (k : Fin 64) (value : BitVec 64) : BitVec 64 := value ||| BitVec.twoPow 64 k

def clearBit (k : Fin 64) (value : BitVec 64) : BitVec 64 := value &&& ~~~BitVec.twoPow 64 k

/-- The bits of a leaf. -/
def bits (value : BitVec 64) : Finset (Fin 64) := {k | value.getLsbD k}

theorem getLsbD_byteMask (k : ℕ) :
    (byteMask i).getLsbD k = (decide (8 * i.val ≤ k) && decide (k < 8 * i.val + 8)) := by
  have h255 : ∀ j < 64, (255#64).getLsbD j = decide (j < 8) := by decide
  rw [byteMask, BitVec.getLsbD_shiftLeft]
  by_cases hk : k < 64
  · rw [h255 _ (by omega), Bool.eq_iff_iff]
    simp only [Bool.and_eq_true, decide_eq_true_eq, Bool.not_eq_eq_eq_not, Bool.not_true,
      decide_eq_false_iff_not]
    omega
  · have : ¬k < 8 * i.val + 8 := by omega
    simp [hk, this]

@[simp] theorem counter_setCounter_self (count : BitVec 8) (value : BitVec 64) :
    counter i (setCounter i count value) = count := by
  apply BitVec.eq_of_getLsbD_eq
  intro k hk
  have h64 : 8 * i.val + k < 64 := by omega
  simp only [counter, setCounter, BitVec.getLsbD_extractLsb', BitVec.getLsbD_or, BitVec.getLsbD_and,
    BitVec.getLsbD_not, getLsbD_byteMask, BitVec.getLsbD_shiftLeft, BitVec.getLsbD_setWidth]
  simp [hk, h64, show k < 64 by omega]

variable {i}

theorem counter_setCounter_of_ne {i j : Fin 8} (h : j ≠ i) (count : BitVec 8) (value : BitVec 64) :
    counter j (setCounter i count value) = counter j value := by
  have hval : j.val ≠ i.val := fun heq => h (Fin.ext heq)
  apply BitVec.eq_of_getLsbD_eq
  intro k hk
  have h64 : 8 * j.val + k < 64 := by omega
  simp only [counter, setCounter, BitVec.getLsbD_extractLsb', BitVec.getLsbD_or, BitVec.getLsbD_and,
    BitVec.getLsbD_not, getLsbD_byteMask, BitVec.getLsbD_shiftLeft, BitVec.getLsbD_setWidth]
  -- the byte lies below or above the one that is written
  obtain hlt | hlt := lt_or_gt_of_ne hval
  · have hbelow : 8 * j.val + k < 8 * i.val := by omega
    simp [hk, h64, hbelow]
  · have habove : ¬8 * j.val + k < 8 * i.val + 8 := by omega
    have hout : count.getLsbD (8 * j.val + k - 8 * i.val) = false :=
      BitVec.getLsbD_of_ge _ _ (by omega)
    simp [hk, h64, habove, hout]

/-- A router's word is zero exactly if its counters are. -/
theorem eq_zero_iff_counter : value = 0 ↔ ∀ i, counter i value = 0 := by
  constructor
  · rintro rfl i
    simp [counter]
  · intro h
    apply BitVec.eq_of_getLsbD_eq
    intro k hk
    have hbyte := congrArg (BitVec.getLsbD · (k % 8)) (h ⟨k / 8, by omega⟩)
    have hk' : 8 * (k / 8) + k % 8 = k := by omega
    simpa [counter, BitVec.getLsbD_extractLsb', hk', Nat.mod_lt] using hbyte

theorem counter_raise_of_ne {i j : Fin 8} (h : j ≠ i) (value : BitVec 64) :
    counter j (raise i value) = counter j value := by
  unfold raise
  split
  · rfl
  · exact counter_setCounter_of_ne h _ _

theorem counter_lower_of_ne {i j : Fin 8} (h : j ≠ i) (value : BitVec 64) :
    counter j (lower i value) = counter j value := by
  unfold lower
  split
  · rfl
  · exact counter_setCounter_of_ne h _ _

theorem toNat_counter_raise (h : (counter i value).toNat < 64) :
    (counter i (raise i value)).toNat = (counter i value).toNat + 1 := by
  rw [raise, if_neg (by omega), counter_setCounter_self, BitVec.toNat_add]
  change ((counter i value).toNat + 1) % 256 = _
  omega

theorem toNat_counter_lower (h : 0 < (counter i value).toNat) :
    (counter i (lower i value)).toNat = (counter i value).toNat - 1 := by
  have hne : counter i value ≠ 0 := by
    intro h0
    simp [h0] at h
  have hlt := (counter i value).isLt
  rw [lower, if_neg hne, counter_setCounter_self, BitVec.toNat_sub]
  change (2 ^ 8 - 1 + (counter i value).toNat) % 2 ^ 8 = _
  omega

@[simp] theorem mem_bits {k : Fin 64} : k ∈ bits value ↔ value.getLsbD k := by
  simp [bits]

theorem bits_setBit (k : Fin 64) (value : BitVec 64) :
    bits (setBit k value) = insert k (bits value) := by
  ext j
  simp only [mem_bits, setBit, BitVec.getLsbD_or, BitVec.getLsbD_twoPow, Finset.mem_insert,
    Bool.or_eq_true, Bool.and_eq_true, decide_eq_true_eq, k.isLt, true_and]
  rw [or_comm, ← Fin.ext_iff, eq_comm]

theorem bits_clearBit (k : Fin 64) (value : BitVec 64) :
    bits (clearBit k value) = (bits value).erase k := by
  ext j
  simp only [mem_bits, clearBit, BitVec.getLsbD_and, BitVec.getLsbD_not, BitVec.getLsbD_twoPow,
    Finset.mem_erase, Bool.and_eq_true, Bool.not_eq_eq_eq_not, Bool.not_true, decide_eq_true_eq,
    Bool.and_eq_false_iff, decide_eq_false_iff_not, j.isLt, k.isLt, not_true, false_or, true_and]
  rw [and_comm, ← Fin.ext_iff, ne_comm]

theorem bits_eq_empty_iff : bits value = ∅ ↔ value = 0 := by
  constructor
  · intro h
    apply BitVec.eq_of_getLsbD_eq
    intro k hk
    have hmem : (⟨k, hk⟩ : Fin 64) ∉ bits value := by simp [h]
    simpa using hmem
  · rintro rfl
    ext k
    simp

/-! ### Nodes -/

structure Router where
  /-- `m_value`, the counters of the branches. -/
  value : BitVec 64 := 0
  /-- The words of the leaves. -/
  children : Fin 8 → BitVec 64 := fun _ => 0

def biasFlag : BitVec 64 := 1#64 <<< 63

/-- `calculate_bias`, with `2 ^ level` blocks: the index it chooses, and the bias it leaves. The
left half is shifted down before it is searched at a base that is not, so what is chosen there need
not be a branch that has anything. -/
def calculateBias : ℕ → BitVec 64 → BitVec 64 → BitVec 64 → ℕ → ℕ × BitVec 64
  | level, value, bias, biasBit, baseShift =>
    let blocks := 2 ^ level
    let maskLower := ((1#64 <<< (blocks * 8)) - 1) <<< (baseShift * 8)
    let rightHalf := value &&& maskLower
    let leftHalf := (value &&& ~~~maskLower) >>> (blocks * 8)
    if (bias &&& biasBit ≠ 0 ∧ rightHalf ≠ 0) ∨ leftHalf = 0 then
      match level with
      | 0 => (0, bias &&& ~~~biasBit)
      | level + 1 => calculateBias level rightHalf (bias &&& ~~~biasBit) (biasBit >>> 1) baseShift
    else
      match level with
      | 0 => (1, bias ||| biasBit)
      | level + 1 =>
        let (idx, bias) :=
          calculateBias level leftHalf (bias ||| biasBit) (biasBit >>> 1) (baseShift + blocks)
        (idx + blocks, bias)

/-- The bit that a leaf chooses, which is the first from the cursor in the low bits of the bias, and
the bias with the cursor moved behind it. -/
def selectBit (bias value : BitVec 64) : Fin 64 × BitVec 64 :=
  let start := (bias &&& 63#64).toNat
  let offset := (value.rotateRight start).ctz.toNat
  let bit := Fin.ofNat 64 (start + offset)
  (bit, (bias &&& ~~~63#64) ||| BitVec.ofNat 64 ((bit.val + 1) % 64))

theorem getLsbD_rotateRight_of_lt {start j : ℕ} (hstart : start < 64) (hj : j < 64) :
    (value.rotateRight start).getLsbD j = value.getLsbD ((start + j) % 64) := by
  rw [BitVec.getLsbD_rotateRight, Nat.mod_eq_of_lt hstart]
  obtain hin | hout := Nat.lt_or_ge j (64 - start)
  · simp [hin, Nat.mod_eq_of_lt (show start + j < 64 by omega)]
  · have hmod : (start + j) % 64 = j - (64 - start) := by omega
    simp [hmod, hj, not_lt.2 hout]

/-- A word that is not zero chooses one of its bits. -/
theorem selectBit_mem (bias : BitVec 64) (h : value ≠ 0) :
    (selectBit bias value).1 ∈ bits value := by
  unfold selectBit
  have hstart : (bias &&& 63#64).toNat < 64 := by
    rw [BitVec.toNat_and]
    exact lt_of_le_of_lt Nat.and_le_right (by decide)
  generalize (bias &&& 63#64).toNat = start at hstart
  have hne : value.rotateRight start ≠ 0 := by
    intro h0
    obtain ⟨k, hk⟩ := Finset.nonempty_iff_ne_empty.2 (bits_eq_empty_iff.not.2 h)
    -- the rotation brings the bit here
    have hbit : (value.rotateRight start).getLsbD ((k + (64 - start)) % 64) = _ :=
      getLsbD_rotateRight_of_lt hstart (Nat.mod_lt _ (by decide))
    have hplace : (start + (k + (64 - start)) % 64) % 64 = k := by omega
    rw [h0, hplace, mem_bits.1 hk] at hbit
    simp at hbit
  have hfound := BitVec.getLsbD_true_ctz_of_ne_zero hne
  rw [getLsbD_rotateRight_of_lt hstart (BitVec.ctz_lt_iff_ne_zero.2 hne)] at hfound
  exact mem_bits.2 hfound

/-- The branches in the order in which they are tried: the preferred one, and the others whose
counters are not zero. -/
def branches (value : BitVec 64) (idx : Fin 8) : List (Fin 8) :=
  idx :: (List.finRange 8).filter fun i => i ≠ idx ∧ counter i value ≠ 0

/-- The preferred branch as the descent numbers it. -/
abbrev branchesFrom (value : BitVec 64) (idx : ℕ) : List (Fin 8) := branches value (Fin.ofNat 8 idx)

/-- A branch that is counted is tried. -/
theorem mem_branches {idx i : Fin 8} (h : counter i value ≠ 0) :
    i ∈ branches value idx := by
  by_cases hi : i = idx
  · simp [branches, hi]
  · simpa [branches, hi] using h

/-- The first leaf that is not empty is taken. -/
def selectAmong (children : Fin 8 → BitVec 64) :
    List (Fin 8) → BitVec 64 → Option (Fin 8 × Fin 64) × BitVec 64
  | [], bias => (none, bias)
  | i :: rest, bias =>
    if children i = 0 then selectAmong children rest bias
    else (some (i, (selectBit bias (children i)).1), (selectBit bias (children i)).2)

/-- A leaf that is chosen has a bit. -/
theorem selectAmong_some {indices : List (Fin 8)} {k : Fin 64}
    (h : (selectAmong children indices bias).1 = some (i, k)) : k ∈ bits (children i) := by
  induction indices with
  | nil => cases h
  | cons j rest ih =>
    unfold selectAmong at h
    split at h
    · exact ih h
    · rename_i hne
      cases h
      exact selectBit_mem bias hne

theorem selectAmong_isSome {indices : List (Fin 8)}
    (hi : i ∈ indices) (hne : children i ≠ 0) (bias : BitVec 64) :
    (selectAmong children indices bias).1.isSome := by
  induction indices with
  | nil => simp at hi
  | cons j rest ih =>
    unfold selectAmong
    split
    · rename_i h0
      refine ih ((List.mem_cons.1 hi).resolve_left ?_)
      rintro rfl
      exact hne h0
    · rfl

namespace Router

variable {k : Fin 64} {r : Router}

def schedule (branch : Fin 8) (bit : Fin 64) (r : Router) : Router where
  value := raise branch r.value
  children := Function.update r.children branch (setBit bit (r.children branch))

def deschedule (branch : Fin 8) (bit : Fin 64) (r : Router) : Router where
  value := lower branch r.value
  children := Function.update r.children branch (clearBit bit (r.children branch))

def selectChildIndex (bias biasBit : BitVec 64) (r : Router) :
    Option (Fin 8 × Fin 64) × BitVec 64 :=
  if r.value = 0 then (none, bias)
  else
    let (idx, bias) := calculateBias 2 r.value bias biasBit 0
    selectAmong r.children (branches r.value (Fin.ofNat 8 idx)) bias

/-- Each counter is the number of bits of its leaf. -/
def Counted (r : Router) : Prop :=
  ∀ i, (counter i r.value).toNat = (bits (r.children i)).card

theorem selectChildIndex_some {bias biasBit : BitVec 64}
    (h : (r.selectChildIndex bias biasBit).1 = some (i, k)) : k ∈ bits (r.children i) := by
  unfold selectChildIndex at h
  split at h
  · cases h
  · exact selectAmong_some h

/-- A leaf that is not empty is counted, and so it is tried. -/
theorem Counted.selectChildIndex_isSome (hr : r.Counted)
    (hk : k ∈ bits (r.children i)) (bias biasBit : BitVec 64) :
    (r.selectChildIndex bias biasBit).1.isSome := by
  have hcounter : counter i r.value ≠ 0 := by
    intro h0
    have hcard := hr i
    rw [h0] at hcard
    exact absurd hcard.symm (Finset.card_pos.2 ⟨k, hk⟩).ne'
  have hchild : r.children i ≠ 0 := by
    intro h0
    rw [bits_eq_empty_iff.2 h0] at hk
    exact Finset.notMem_empty k hk
  have hvalue : r.value ≠ 0 := fun h0 => hcounter (eq_zero_iff_counter.1 h0 i)
  rw [selectChildIndex, if_neg hvalue]
  exact selectAmong_isSome (mem_branches hcounter) hchild _

/-- The number of bits of a leaf is at most 64, so the counters are never capped. -/
theorem Counted.schedule (hr : r.Counted)
    (hk : k ∉ bits (r.children i)) : (r.schedule i k).Counted := by
  intro j
  by_cases hj : j = i
  · subst hj
    have hlt : (bits (r.children j)).card < 64 := by
      have hne : bits (r.children j) ≠ Finset.univ := fun huniv => hk (huniv ▸ Finset.mem_univ k)
      simpa using Finset.card_lt_card (Finset.ssubset_univ_iff.2 hne)
    simp only [Router.schedule, update_self]
    rw [toNat_counter_raise (by rw [hr j]; exact hlt), hr j, bits_setBit,
      Finset.card_insert_of_notMem hk]
  · simp only [Router.schedule, update_of_ne hj]
    rw [counter_raise_of_ne hj, hr j]

theorem Counted.deschedule (hr : r.Counted)
    (hk : k ∈ bits (r.children i)) : (r.deschedule i k).Counted := by
  intro j
  by_cases hj : j = i
  · subst hj
    simp only [Router.deschedule, update_self]
    rw [toNat_counter_lower (by rw [hr j]; exact Finset.card_pos.2 ⟨k, hk⟩), hr j, bits_clearBit,
      Finset.card_erase_of_mem hk]
  · simp only [Router.deschedule, update_of_ne hj]
    rw [counter_lower_of_ne hj, hr j]

end Router

/-! ### The tree -/

structure SignalTree (n : ℕ) where
  routers : Fin n → Router := fun _ => {}
  nextId : ℕ := 0

namespace SignalTree

variable {n : ℕ} {id : Id n} {tree : SignalTree n} {order : List (Fin n)}

/-- The bit of an id is set. -/
def Has (tree : SignalTree n) (id : Id n) : Prop :=
  id.bit ∈ bits ((tree.routers id.router).children id.branch)

instance (tree : SignalTree n) (id : Id n) : Decidable (tree.Has id) :=
  inferInstanceAs (Decidable (_ ∈ bits _))

def schedule (id : Id n) (tree : SignalTree n) : SignalTree n :=
  { tree with
    routers := Function.update tree.routers id.router
      ((tree.routers id.router).schedule id.branch id.bit) }

def deschedule (id : Id n) (tree : SignalTree n) : SignalTree n :=
  { tree with
    routers := Function.update tree.routers id.router
      ((tree.routers id.router).deschedule id.branch id.bit) }

/-- The next id that was not used, until the capacity is reached. -/
def freeContractId (tree : SignalTree n) : Option (Id n × SignalTree n) :=
  if h : tree.nextId < 512 * n then
    some (⟨tree.nextId, h⟩, { tree with nextId := tree.nextId + 1 })
  else none

theorem freeContractId_eq_some {tree tree' : SignalTree n}
    (h : tree.freeContractId = some (id, tree')) :
    id.val = tree.nextId ∧ tree' = { tree with nextId := tree.nextId + 1 } := by
  unfold freeContractId at h
  split at h
  · obtain ⟨rfl, rfl⟩ := Prod.mk.inj (Option.some.inj h)
    exact ⟨rfl, rfl⟩
  · simp at h

/-- The routers are asked in turn, and the top bit of the bias is flipped if one of them has a
contract. -/
def nextAmong (tree : SignalTree n) : List (Fin n) → BitVec 64 → Option (Id n) × BitVec 64
  | [], bias => (none, bias)
  | r :: rest, bias =>
    match (tree.routers r).selectChildIndex bias (biasFlag >>> 1) with
    | (none, bias) => nextAmong tree rest bias
    | (some (i, k), bias) => (some (.of r i k), bias ^^^ biasFlag)

/-- The routers from the end that the bias prefers. -/
def routerOrder (n : ℕ) (bias : BitVec 64) : List (Fin n) :=
  if bias &&& biasFlag ≠ 0 then (List.finRange n).reverse else List.finRange n

def next (tree : SignalTree n) (bias : BitVec 64) : Option (Id n) × BitVec 64 :=
  tree.nextAmong (routerOrder n bias) bias

theorem mem_routerOrder (bias : BitVec 64) (r : Fin n) : r ∈ routerOrder n bias := by
  unfold routerOrder
  split <;> simp

@[simp] theorem has_schedule (tree : SignalTree n) (i j : Id n) :
    (tree.schedule i).Has j ↔ j = i ∨ tree.Has j := by
  unfold Has schedule
  by_cases hr : j.router = i.router
  · by_cases hb : j.branch = i.branch
    · have hplace : j.bit = i.bit ↔ j = i := ⟨Id.eq_of_place hr hb, congrArg Id.bit⟩
      simp [hr, hb, Router.schedule, bits_setBit, hplace]
    · have hne : j ≠ i := fun h => hb (congrArg Id.branch h)
      simp [hr, Router.schedule, update_of_ne hb, hne]
  · have hne : j ≠ i := fun h => hr (congrArg Id.router h)
    simp [update_of_ne hr, hne]

@[simp] theorem has_deschedule (tree : SignalTree n) (i j : Id n) :
    (tree.deschedule i).Has j ↔ j ≠ i ∧ tree.Has j := by
  unfold Has deschedule
  by_cases hr : j.router = i.router
  · by_cases hb : j.branch = i.branch
    · have hplace : j.bit = i.bit ↔ j = i := ⟨Id.eq_of_place hr hb, congrArg Id.bit⟩
      simp [hr, hb, Router.deschedule, bits_clearBit, hplace]
    · have hne : j ≠ i := fun h => hb (congrArg Id.branch h)
      simp [hr, Router.deschedule, update_of_ne hb, hne]
  · have hne : j ≠ i := fun h => hr (congrArg Id.router h)
    simp [update_of_ne hr, hne]

@[simp] theorem not_has_empty (id : Id n) (next : ℕ) :
    ¬({ nextId := next } : SignalTree n).Has id := by
  simp [Has]

/-! ### What is found -/

theorem nextAmong_some (h : (tree.nextAmong order bias).1 = some id) : tree.Has id := by
  induction order generalizing bias with
  | nil => cases h
  | cons r rest ih =>
    unfold nextAmong at h
    split at h
    · exact ih h
    · rename_i i k after hselect
      obtain rfl : Id.of r i k = id := Option.some.inj h
      have hmem := Router.selectChildIndex_some (congrArg Prod.fst hselect)
      simpa [Has] using hmem

theorem has_of_next (h : (tree.next bias).1 = some id) : tree.Has id := nextAmong_some h

def Counted (tree : SignalTree n) : Prop := ∀ r, (tree.routers r).Counted

theorem counted_empty (next : ℕ) : ({ nextId := next } : SignalTree n).Counted := by
  intro r i
  have hbits : bits 0#64 = ∅ := bits_eq_empty_iff.2 rfl
  simp [counter, hbits]

section

variable (h : tree.Counted)

include h

theorem Counted.schedule (hid : ¬tree.Has id) : (tree.schedule id).Counted := by
  intro r
  by_cases hr : r = id.router
  · subst hr
    simpa [SignalTree.schedule] using (h id.router).schedule hid
  · simpa [SignalTree.schedule, update_of_ne hr] using h r

theorem Counted.deschedule (hid : tree.Has id) :
    (tree.deschedule id).Counted := by
  intro r
  by_cases hr : r = id.router
  · subst hr
    simpa [SignalTree.deschedule] using (h id.router).deschedule hid
  · simpa [SignalTree.deschedule, update_of_ne hr] using h r

theorem Counted.nextAmong_isSome
    (hid : tree.Has id) (hmem : id.router ∈ order) (bias : BitVec 64) :
    (tree.nextAmong order bias).1.isSome := by
  induction order generalizing bias with
  | nil => simp at hmem
  | cons r rest ih =>
    unfold nextAmong
    split
    · rename_i bias' hselect
      refine ih ((List.mem_cons.1 hmem).resolve_left ?_) bias'
      rintro rfl
      have hsome := (h id.router).selectChildIndex_isSome hid bias (biasFlag >>> 1)
      simp [hselect] at hsome
    · rfl

/-- **Completeness of `next`.** Whatever the bias is, a contract is found if there is one. -/
theorem Counted.next_isSome
    (hid : tree.Has id) (bias : BitVec 64) : (tree.next bias).1.isSome :=
  h.nextAmong_isSome hid (mem_routerOrder bias _) bias

end

/-! ### The tree as a set -/

/-- The trees that calls of `schedule` and `deschedule` lead to, with the ids that are in the set by
these calls: only what is not in it is put in, and only what is in it is taken out. -/
inductive Tracks : SignalTree n → Set (Id n) → Prop
  | empty : Tracks {} ∅
  | schedule {tree : SignalTree n} {ids : Set (Id n)} {id : Id n} :
    Tracks tree ids → id ∉ ids → Tracks (tree.schedule id) (insert id ids)
  | deschedule {tree : SignalTree n} {ids : Set (Id n)} {id : Id n} :
    Tracks tree ids → id ∈ ids → Tracks (tree.deschedule id) (ids \ {id})

variable {ids : Set (Id n)}

theorem Tracks.counted (h : Tracks tree ids) : tree.Counted ∧ ∀ id, tree.Has id ↔ id ∈ ids := by
  induction h with
  | empty => exact ⟨counted_empty 0, fun id => iff_of_false (not_has_empty id 0) fun h => h⟩
  | schedule _ hid ih =>
    refine ⟨ih.1.schedule ((ih.2 _).not.2 hid), fun j => ?_⟩
    rw [has_schedule, ih.2, Set.mem_insert_iff]
  | deschedule _ hid ih =>
    refine ⟨ih.1.deschedule ((ih.2 _).2 hid), fun j => ?_⟩
    rw [has_deschedule, ih.2, Set.mem_sdiff_singleton, and_comm]

/-- **The tree is a set.** Whatever the bias is, `next` returns one of the ids of the set, and none
if there is none. It does not change the tree. -/
theorem next_member_of_tracks (h : Tracks tree ids) (bias : BitVec 64) :
    (ids.Nonempty → ∃ id ∈ ids, (tree.next bias).1 = some id) ∧
      (ids = ∅ → (tree.next bias).1 = none) := by
  obtain ⟨hcounted, hhas⟩ := h.counted
  constructor
  · rintro ⟨id, hid⟩
    obtain ⟨found, hfound⟩ :=
      Option.isSome_iff_exists.1 (hcounted.next_isSome ((hhas id).2 hid) bias)
    exact ⟨found, (hhas found).1 (has_of_next hfound), hfound⟩
  · rintro rfl
    refine Option.eq_none_iff_forall_ne_some.2 fun id hfound => ?_
    exact (hhas id).1 (has_of_next hfound)

/-- One of two ids is taken out. -/
theorem next_member_of_tracks_one :
    ((((({} : SignalTree 1).schedule 3).schedule 70).deschedule 3).next 0).1 = some 70 := by
  have htracks := ((Tracks.empty.schedule (Set.notMem_empty (3 : Id 1))).schedule
    (show 70 ∉ _ by simp)).deschedule (show 3 ∈ _ by simp)
  obtain ⟨id, hid, hnext⟩ := (next_member_of_tracks htracks 0).1 ⟨70, by simp⟩
  obtain rfl : id = 70 := by simpa using hid
  exact hnext

end SignalTree

end Congelado.Contract
