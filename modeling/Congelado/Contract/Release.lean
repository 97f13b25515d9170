import Congelado.Contract.Exclusion

/-!
# What is released is freed

`release` sets `RELEASED`, and calls `schedule` if the contract is not scheduled. But `schedule`
returns at once for a contract that is released, so nothing is put into the tree. A contract that is
idle stays there for good, and so does one whose worker is being executed and that nobody has
scheduled again.

If the contract is scheduled when the flag is set, or has been claimed by a call that has not looked
at the flag yet, then its releaser is not lost (`Timely`): it is on its way (`Pool.Awaited`) until
it has run. When no call attends the contract any more, its id is in the tree. That
`process_next_contract` finds it there is due to the counters. A contract is counted before its bit
is set and until after it was cleared (`weight`), so that no leaf with a bit is passed over, and a
thread that goes on calling `process_next_contract` comes to every bit there is (`Group.Ready`).
-/

namespace Congelado.Contract

open Function Transition

/-! ### One contract -/

section Contract

variable {f f' : Flags} {b b' : Bool} {p p' : Option Part} {held claims marks : Prop}
    {shift : Fin 8 → BitVec 64 → BitVec 64} {parts : Multiset Part}

/-- What a contract adds to the counter of its branch. -/
def weight (parts : Multiset Part) (b : Bool) : ℕ :=
  (if b then 1 else 0) + parts.count .lowering + parts.count .filing

theorem Attended.weight_le (h : Attended parts f b held) : weight parts b ≤ 1 := by
  obtain ⟨rfl, -⟩ | ⟨part, rfl, hfits, -⟩ := h
  · cases b <;> decide
  · cases part <;> obtain ⟨rfl, -⟩ := hfits <;> decide

/-- The counter of the branch changes as the weight does. -/
theorem Acts.weight (h : Acts claims marks p f b p' f' b' shift)
    (hs : Attended (joined p parts) f b held) :
    (shift = keep ∧ weight (joined p' parts) b' = weight (joined p parts) b) ∨
    (shift = lower ∧ weight (joined p parts) b = 1 ∧ weight (joined p' parts) b' = 0) ∨
    (shift = raise ∧ weight (joined p parts) b = 0 ∧ weight (joined p' parts) b' = 1) := by
  cases h with
  | claims => exact .inl ⟨rfl, by simp [Contract.weight, joined]⟩
  | marks =>
    refine .inl ⟨rfl, ?_⟩
    split <;> simp [Contract.weight, joined]
  | asks => exact .inl ⟨rfl, rfl⟩
  | lowers =>
    obtain ⟨rfl, ⟨rfl, -⟩, -⟩ := hs.alone
    exact .inr (.inl ⟨rfl, rfl, rfl⟩)
  | raises =>
    obtain ⟨rfl, ⟨rfl, -⟩, -⟩ := hs.alone
    exact .inr (.inr ⟨rfl, rfl, rfl⟩)
  | finishes =>
    obtain ⟨rfl, ⟨rfl, -⟩, -⟩ := hs.alone
    refine .inl ⟨rfl, ?_⟩
    split <;> rfl
  | _ =>
    obtain ⟨rfl, ⟨rfl, -⟩, -⟩ := hs.alone
    exact .inl ⟨rfl, rfl⟩

/-- The call has claimed the contract, and has not looked at `RELEASED` yet. -/
def Part.isComing : Part → Bool
  | .taking | .lowering | .entering => true
  | _ => false

/-- The releaser of a contract is on its way. -/
def Awaited (parts : Multiset Part) (f : Flags) : Prop :=
  f.released = true ∧ (f.scheduled = true ∨ ∃ part ∈ parts, part.isComing ∨ part = .freeing)

/-- **One step, one contract.** The releaser runs, or has run, or is on its way. -/
theorem Acts.awaited (h : Acts claims marks p f b p' f' b' shift)
    (hs : Attended (joined p parts) f b held) (hf : Awaited (joined p parts) f) :
    p = some .freeing ∨ p = some .erasing ∨ Awaited (joined p' parts) f' := by
  cases h with
  | claims | unfiles | lowers =>
    exact .inr (.inr ⟨hf.1, .inr ⟨_, Multiset.mem_cons_self _ _, .inl rfl⟩⟩)
  | starts _ hnot => exact absurd (hnot.symm.trans hf.1) nofun
  | frees => exact .inr (.inr ⟨hf.1, .inr ⟨_, Multiset.mem_cons_self _ _, .inr rfl⟩⟩)
  | finishes =>
    -- the call has looked at the flag before, so that the contract is scheduled again
    obtain ⟨rfl, -, -⟩ := hs.alone
    refine .inr (.inr ⟨hf.1, .inl (hf.2.resolve_right ?_)⟩)
    rintro ⟨part, hpart, hcoming⟩
    obtain rfl := Multiset.mem_singleton.1 hpart
    exact hcoming.elim nofun nofun
  | freed => exact .inl rfl
  | erases => exact .inr (.inl rfl)
  | raises | files =>
    obtain ⟨rfl, hfits, -⟩ := hs.alone
    exact .inr (.inr ⟨hf.1, .inl hfits.2.1⟩)
  | marks => exact .inr (.inr ⟨hf.1, .inl rfl⟩)
  | asks => exact .inr (.inr ⟨rfl, hf.2⟩)

/-- A contract is erased after its releaser has run. -/
theorem Acts.erasing (h : Acts claims marks p f b p' f' b' shift) (hp : p' = some .erasing) :
    p = some .freeing := by
  cases h with
  | freed => rfl
  | finishes | marks => split at hp <;> cases hp
  | _ => cases hp

end Contract

/-! ### The pool -/

variable {n k : ℕ} {id : Id n} {s t : Pool n k} {turn : Turn n k} {τ : Fin k} {frame : Frame n}
    {rest : List (Frame n)}

theorem Frame.frees_of_role (h : frame.role = some (id, .freeing)) : frame.frees = some id := by
  unfold role at h
  split at h <;> simp_all [frees]

namespace Pool

/-- What the contracts of a branch add to its counter. -/
def weight (s : Pool n k) (id : Id n) : ℕ := Contract.weight (s.parts id) (s.group.bit id)

/-- No counter has been capped. -/
def Counts (s : Pool n k) : Prop :=
  ∀ r i, (counter i (s.group.words r)).toNat = ∑ k, s.weight (.of r i k)

theorem sum_weight (s : Pool n k) (id : Id n) : ∑ k, s.weight (.of id.router id.branch k) =
    s.weight id + ∑ k ∈ Finset.univ.erase id.bit, s.weight (.of id.router id.branch k) := by
  have hid : Id.of id.router id.branch id.bit = id := Id.eq_of_place (by simp) (by simp) (by simp)
  rw [← Finset.add_sum_erase _ _ (Finset.mem_univ id.bit), hid]

theorem Counts.go (hcounts : s.Counts) (hs : s.Sound) (h : Moves s t frame) : t.Counts := by
  intro r i
  cases h with
  | idles group parts =>
    simp only [weight, group, parts]
    exact hcounts r i
  | @acts j p p' shift X act role parts parts' others held sees words =>
    -- one contract changes its weight, and one word one of its counters
    have hsame : ∀ id ≠ j, t.weight id = s.weight id := by
      intro id hid
      obtain ⟨hparts, -, hbit⟩ := others id hid
      rw [weight, weight, hparts, hbit]
    have hattended := hs.attended j
    rw [parts] at hattended
    have hweight := act.weight hattended
    rw [← parts, ← parts'] at hweight
    change (_ ∧ t.weight j = s.weight j) ∨ (_ ∧ s.weight j = 1 ∧ t.weight j = 0) ∨
      (_ ∧ s.weight j = 0 ∧ t.weight j = 1) at hweight
    by_cases hplace : r = j.router ∧ i = j.branch
    · obtain ⟨rfl, rfl⟩ := hplace
      have hrest : ∑ k ∈ Finset.univ.erase j.bit, t.weight (.of j.router j.branch k) =
          ∑ k ∈ Finset.univ.erase j.bit, s.weight (.of j.router j.branch k) := by
        refine Finset.sum_congr rfl fun k hk => hsame _ fun hj => Finset.ne_of_mem_erase hk ?_
        rw [← hj, Id.bit_of]
      -- the other bits of the leaf are 63, so the byte has room for one more
      have hroom : ∑ k ∈ Finset.univ.erase j.bit, s.weight (.of j.router j.branch k) ≤ 63 := by
        have hle := Finset.sum_le_card_nsmul (Finset.univ.erase j.bit)
          (fun k => s.weight (.of j.router j.branch k)) 1 fun _ _ => (hs.attended _).weight_le
        simpa using hle
      have hold := hcounts j.router j.branch
      rw [sum_weight] at hold
      rw [sum_weight, hrest, words, update_self]
      change (counter j.branch (s.group.word j)).toNat = _ at hold
      obtain ⟨rfl, heq⟩ | ⟨rfl, hone, hzero⟩ | ⟨rfl, hzero, hone⟩ := hweight
      · rw [keep, hold, heq]
      · rw [toNat_counter_lower (by omega)]
        omega
      · rw [toNat_counter_raise (by omega)]
        omega
    · have hcounter : counter i (t.group.words r) = counter i (s.group.words r) := by
        rw [words]
        by_cases hr : r = j.router
        · have hi : i ≠ j.branch := fun hi => hplace ⟨hr, hi⟩
          subst hr
          rw [update_self]
          obtain ⟨rfl, -⟩ | ⟨rfl, -⟩ | ⟨rfl, -⟩ := hweight
          · rfl
          · exact counter_lower_of_ne hi _
          · exact counter_raise_of_ne hi _
        · rw [update_of_ne hr]
      rw [hcounter, hcounts]
      refine (Finset.sum_congr rfl fun k _ => hsame _ fun hj => hplace ?_).symm
      rw [← hj, Id.router_of, Id.branch_of]
      exact ⟨rfl, rfl⟩

/-- What a run keeps: nothing is miscounted, and no releaser is lost. -/
structure Tended (s : Pool n k) : Prop where
  sound : s.Sound
  counts : s.Counts
  erased : ∀ id, .erasing ∈ s.parts id → id ∈ s.freed
  answered : ∀ id ∈ s.asked, id ∈ s.freed ∨ Awaited (s.parts id) (s.group.workers id)

/-- `RELEASED` is set when the contract is scheduled, or was claimed by a call that has not looked
at it yet; and no contract is marked that a call is about to take, or parked. -/
def Timely (s : Pool n k) (turn : Turn n k) : Prop :=
  Waits s turn ∧ ∀ frame ∈ s.moving turn, ∀ id ∈ frame.asks,
    (s.group.workers id).scheduled = true ∨
      ∃ τ, ∃ frame ∈ s.threads τ, (frame.part id).any Part.isComing

instance (s : Pool n k) (turn : Turn n k) : Decidable (Timely s turn) :=
  inferInstanceAs (Decidable (_ ∧ ∀ frame ∈ s.moving turn, ∀ id ∈ frame.asks, _))

theorem Tended.erased_go (hs : s.Tended) (h : Moves s t frame)
    (hfreed : t.freed = frame.frees.toList ++ s.freed) (id : Id n) (hid : .erasing ∈ t.parts id) :
    id ∈ t.freed := by
  rw [hfreed]
  cases h with
  | idles group parts => exact List.mem_append_right _ (hs.erased id (parts ▸ hid))
  | acts j act role parts parts' others =>
    by_cases hj : id = j
    · subst hj
      rw [parts'] at hid
      obtain hid | hid := mem_joined.1 hid
      · obtain rfl := act.erasing hid
        rw [Frame.frees_of_role role]
        exact .head _
      · exact List.mem_append_right _ (hs.erased id (parts ▸ mem_joined.2 (.inr hid)))
    · rw [(others id hj).1] at hid
      exact List.mem_append_right _ (hs.erased id hid)

theorem Tended.awaited_go (hs : s.Tended) (h : Moves s t frame)
    (hfreed : t.freed = frame.frees.toList ++ s.freed)
    (hid : Awaited (s.parts id) (s.group.workers id)) :
    id ∈ t.freed ∨ Awaited (t.parts id) (t.group.workers id) := by
  rw [hfreed]
  cases h with
  | idles group parts => exact .inr (by rwa [group, parts])
  | acts j act role parts parts' others =>
    by_cases hj : id = j
    · subst hj
      have hattended := hs.sound.attended id
      rw [parts] at hid hattended
      rw [parts']
      obtain rfl | rfl | hid := act.awaited hattended hid
      · rw [Frame.frees_of_role role]
        exact .inl (.head _)
      · refine .inl (List.mem_append_right _ (hs.erased id ?_))
        rw [parts]
        exact Multiset.mem_cons_self _ _
      · exact .inr hid
    · rw [(others id hj).1, (others id hj).2.1]
      exact .inr hid

theorem Tended.step (hs : s.Tended) (hturn : Timely s turn)
    (h : (pool n k).next turn s = some t) : t.Tended := by
  have hsound := hs.sound.step hturn.1 h
  obtain ⟨operation, rfl⟩ | ⟨exchange, frame, rest, hact, hstack, rfl⟩ := step_cases h
  · -- a call begins, and has no part yet
    have hparts := parts_call s turn.thread operation
    refine ⟨hsound, fun r i => ?_, fun id hid => hs.erased id (hparts ▸ hid), fun id hid => ?_⟩
    · simp only [weight, hparts]
      exact hs.counts r i
    · rw [hparts]
      exact hs.answered id hid
  · have hframe : frame ∈ s.threads turn.thread := hstack ▸ List.mem_cons_self
    have hmoving : frame ∈ s.moving turn := by simp [moving, hact, hstack]
    have hmoves := moves hstack (hturn.1 frame hmoving).1 (hs.sound.sees _ _ hframe) exchange
    refine ⟨hsound, hs.counts.go hs.sound hmoves, hs.erased_go hmoves rfl, fun id hid => ?_⟩
    obtain hid | hid := List.mem_append.1 hid
    · have hasks : id ∈ frame.asks := Option.mem_toList.1 hid
      have hbefore := hturn.2 frame hmoving id hasks
      obtain rfl : frame = .releaseMark id := by
        cases frame <;> cases hasks
        rfl
      have hparts : (s.advance turn.thread exchange (.releaseMark id) rest).parts id =
          s.parts id := by
        rw [parts_update rfl, parts_eq s turn.thread, hstack]
        rfl
      have hflags : (s.advance turn.thread exchange (.releaseMark id) rest).group.workers id =
          { s.group.workers id with released := true } := Group.setFlags_workers_self ..
      rw [hparts, hflags]
      refine .inr ⟨rfl, hbefore.imp_right ?_⟩
      rintro ⟨τ, frame, hframe, hcoming⟩
      obtain ⟨part, hpart, hcoming⟩ := (Option.any_eq_true _ _).1 hcoming
      have hmem : part ∈ partsOf id (s.threads τ) := mem_partsOf.2 ⟨frame, hframe, hpart⟩
      exact ⟨part, Multiset.mem_sum.2 ⟨τ, Finset.mem_univ τ, hmem⟩, .inl hcoming⟩
    · obtain hfreed | hawaited := hs.answered id hid
      · exact .inl (List.mem_append_right _ hfreed)
      · exact hs.awaited_go hmoves rfl hawaited

theorem Tended.init {group : Group n} (h : group.Settled) (hcounted : group.tree.Counted) :
    ({ group } : Pool n k).Tended where
  sound := .init h
  counts r i := by
    have hparts : ∀ id, ({ group } : Pool n k).parts id = 0 := fun _ =>
      Finset.sum_eq_zero fun _ _ => rfl
    change (counter i (group.tree.routers r).value).toNat = _
    rw [hcounted r i, bits, Finset.card_filter]
    refine Finset.sum_congr rfl fun k _ => ?_
    simp [weight, Contract.weight, hparts, Group.bit, SignalTree.Has]
  erased id hid := by
    obtain ⟨_, -, hid⟩ := Multiset.mem_sum.1 hid
    exact absurd hid (Multiset.notMem_zero _)
  answered _ hid := absurd hid List.not_mem_nil

end Pool

/-! ### A thread that goes on alone -/

/-- Only the thread moves, and it calls nothing but `process_next_contract`. -/
def By (τ : Fin k) (bias : Pool n k → BitVec 64) (s : Pool n k) (turn : Turn n k) : Prop :=
  turn.thread = τ ∧ ∀ operation, turn.act = .call operation → operation = .process (bias s)

section Alone

variable {bias : Pool n k → BitVec 64} {g : Group n} {freed : List (Id n)}

/-- The thread alone brings the pool to a state with this group, where it stands before the frame,
and with these contracts freed. -/
def Reaches (τ : Fin k) (bias : Pool n k → BitVec 64) (s : Pool n k) (g : Group n)
    (frame : Option (Frame n)) (freed : List (Id n)) : Prop :=
  ∃ t, (pool n k).Run (By τ bias) s t ∧ t.group = g ∧ t.threads τ = frame.toList ∧ t.freed = freed

theorem Reaches.go (h : Reaches τ bias s g (some frame) freed) (haborts : frame.aborts g = false) :
    Reaches τ bias s (frame.step true g).1 (frame.step true g).2 (frame.frees.toList ++ freed) := by
  obtain ⟨t, hrun, rfl, hstack, rfl⟩ := h
  have hnext : (pool n k).next ⟨τ, .go true⟩ t = some (t.advance τ true frame []) := by
    change t.go τ true = _
    unfold Pool.go
    rw [hstack]
    exact if_neg (Bool.eq_false_iff.1 haborts)
  have hby : By τ bias t ⟨τ, .go true⟩ := ⟨rfl, fun _ hcall => by cases hcall⟩
  exact ⟨_, hrun.tail hby hnext, rfl, (update_self ..).trans (List.append_nil _), rfl⟩

theorem Reaches.call (h : Reaches τ bias s g none freed) :
    ∃ b, Reaches τ bias s g (some (Operation.process b).enter) freed := by
  obtain ⟨t, hrun, rfl, hstack, rfl⟩ := h
  have hnext : (pool n k).next ⟨τ, .call (.process (bias t))⟩ t =
      some (t.setThread τ ((Operation.process (bias t)).enter :: t.threads τ)) :=
    if_pos (by rw [hstack]; rfl)
  have hby : By τ bias t ⟨τ, .call (.process (bias t))⟩ := ⟨rfl, fun _ hcall => by cases hcall; rfl⟩
  exact ⟨bias t, _, hrun.tail hby hnext, rfl, (update_self ..).trans (by rw [hstack]; rfl), rfl⟩

/-- A leaf with a bit is found, or the search goes on with the next router. -/
theorem Reaches.child {r : Fin n} {indices : List (Fin 8)} {order : List (Fin n)} {b : BitVec 64}
    (h : Reaches τ bias s g (some (.nextChild r indices order b)) freed) :
    (∃ j, g.tree.Has j ∧ Reaches τ bias s g (some (.claimLoad j)) freed) ∨
      ((∀ i ∈ indices, (g.tree.routers r).children i = 0) ∧
        Reaches τ bias s g (some (.nextRouter order b)) freed) := by
  induction indices with
  | nil => exact .inr ⟨by simp, h.go rfl⟩
  | cons i indices ih =>
    have hgo := h.go rfl
    simp only [Frame.step] at hgo
    split at hgo
    · rename_i h0
      obtain hfound | ⟨hempty, hnext⟩ := ih hgo
      · exact .inl hfound
      · exact .inr ⟨List.forall_mem_cons.2 ⟨h0, hempty⟩, hnext⟩
    · rename_i hne
      refine .inl ⟨_, ?_, hgo⟩
      simpa [SignalTree.Has] using selectBit_mem b hne

/-- Every contract that is in the tree is scheduled, and is counted. -/
structure Group.Ready (g : Group n) : Prop where
  scheduled : ∀ id, g.tree.Has id → (g.workers id).scheduled = true
  counted : ∀ r i, Finset.card {k | g.tree.Has (.of r i k)} ≤ (counter i (g.words r)).toNat

theorem Id.of_self (id : Id n) : Id.of id.router id.branch id.bit = id :=
  eq_of_place (by simp) (by simp) (by simp)

theorem Group.Ready.counter_pos (hg : g.Ready) (hid : g.tree.Has id) :
    0 < (counter id.branch (g.word id)).toNat := by
  refine lt_of_lt_of_le (Finset.card_pos.2 ⟨id.bit, ?_⟩) (hg.counted id.router id.branch)
  rwa [Finset.mem_filter_univ, Id.of_self]

/-- The search does not come back with nothing while there is a bit. -/
theorem Reaches.search {order : List (Fin n)} {b : BitVec 64} (hg : g.Ready)
    (h : Reaches τ bias s g (some (.nextRouter order b)) freed) (hid : g.tree.Has id)
    (hmem : id.router ∈ order) :
    ∃ j, g.tree.Has j ∧ Reaches τ bias s g (some (.claimLoad j)) freed := by
  have hcounter : counter id.branch (g.tree.routers id.router).value ≠ 0 := by
    intro h0
    have hpos := hg.counter_pos hid
    rw [Group.word, h0] at hpos
    exact absurd hpos (by decide)
  induction order generalizing b with
  | nil => exact absurd hmem List.not_mem_nil
  | cons r order ih =>
    have hgo := h.go rfl
    simp only [Frame.step] at hgo
    split at hgo
    · rename_i h0
      refine ih hgo ((List.mem_cons.1 hmem).resolve_left fun hr => hcounter ?_)
      rw [hr]
      exact eq_zero_iff_counter.1 h0 _
    · obtain hfound | ⟨hempty, hnext⟩ := hgo.child
      · exact hfound
      · refine ih hnext ((List.mem_cons.1 hmem).resolve_left fun hr => ?_)
        subst hr
        have h0 := hempty _ (mem_branches hcounter)
        rw [SignalTree.Has, h0] at hid
        simp at hid

/-- The contract is taken out of the tree, and nothing else changes in it. -/
theorem Group.Ready.take {g' : Group n} {j : Id n} (hg : g.Ready) (hj : g.tree.Has j)
    (hhas : ∀ i, g'.tree.Has i ↔ i ≠ j ∧ g.tree.Has i)
    (hworkers : ∀ i ≠ j, g'.workers i = g.workers i)
    (hwords : g'.words = Function.update g.words j.router (lower j.branch (g.word j))) :
    g'.Ready := by
  constructor
  · intro i hi
    obtain ⟨hne, hi⟩ := (hhas i).1 hi
    rw [hworkers i hne]
    exact hg.scheduled i hi
  · intro r i
    have hle := hg.counted r i
    -- the counter of the leaf and its bits lose one
    by_cases hplace : r = j.router ∧ i = j.branch
    · obtain ⟨rfl, rfl⟩ := hplace
      have herase : ({k | g'.tree.Has (.of j.router j.branch k)} : Finset (Fin 64)) =
          Finset.erase {k | g.tree.Has (.of j.router j.branch k)} j.bit := by
        ext k
        have hk : Id.of j.router j.branch k = j ↔ k = j.bit := by
          constructor
          · intro hk
            rw [← hk, Id.bit_of]
          · rintro rfl
            exact Id.of_self j
        simp [hhas, hk]
      have hmem : j.bit ∈ ({k | g.tree.Has (.of j.router j.branch k)} : Finset (Fin 64)) := by
        rwa [Finset.mem_filter_univ, Id.of_self]
      rw [hwords, update_self, toNat_counter_lower (hg.counter_pos hj), herase,
        Finset.card_erase_of_mem hmem]
      exact Nat.sub_le_sub_right hle 1
    · have hcounter : counter i (g'.words r) = counter i (g.words r) := by
        rw [hwords]
        by_cases hr : r = j.router
        · have hi : i ≠ j.branch := fun hi => hplace ⟨hr, hi⟩
          subst hr
          rw [update_self]
          exact counter_lower_of_ne hi _
        · rw [update_of_ne hr]
      rw [hcounter]
      refine le_trans (Finset.card_le_card fun k hk => ?_) hle
      rw [Finset.mem_filter_univ] at hk ⊢
      exact ((hhas _).1 hk).2

/-- The two steps by which a contract is taken out of the tree. -/
theorem Group.claim_eq (j : Id n) (g : Group n) : g.claim j =
    ((g.setFlags j (g.workers j).claimed).onLeaf j (clearBit j.bit)).setWord j
      (lower j.branch (g.word j)) := by
  simp [claim, setWord, onLeaf, word, onTree, setFlags, SignalTree.deschedule, Router.deschedule]

/-- Nothing keeps the thread from the claim. -/
theorem Reaches.claim {j : Id n} (h : Reaches τ bias s g (some (.claimLoad j)) freed)
    (hg : g.Ready) (hj : g.tree.Has j) :
    Reaches τ bias s (g.claim j) (some (.checkReleased j)) freed := by
  have htest : Reaches τ bias s g (some (.claimTest j (g.workers j))) freed := h.go rfl
  have hclaim := htest.go rfl
  simp only [Frame.step, hg.scheduled j hj, if_true] at hclaim
  have hclear := hclaim.go rfl
  simp only [Frame.step, and_self, if_true] at hclear
  have hlower := (hclear.go rfl).go rfl
  have hword : ((g.setFlags j (g.workers j).claimed).onLeaf j (clearBit j.bit)).word j = g.word j :=
    congrFun (Group.words_onLeaf ..) _
  have hcounter : counter j.branch (g.word j) ≠ 0 := by
    intro h0
    have hpos := hg.counter_pos hj
    rw [h0] at hpos
    exact absurd hpos (by decide)
  simp only [Frame.step, Frame.lowering, hword, hcounter, if_false] at hlower
  have hlook := hlower.go rfl
  simp only [Frame.step, hword, and_self, if_true, ← Group.claim_eq] at hlook
  exact hlook

/-- From the claim to the end of the call: the worker or the releaser is executed. -/
theorem Reaches.process {j : Id n} (h : Reaches τ bias s g (some (.claimLoad j)) freed)
    (hg : g.Ready) (hj : g.tree.Has j) :
    ∃ flags freed', Reaches τ bias s ((g.claim j).setFlags j flags) none freed' ∧
      ((g.workers j).released = true → j ∈ freed') := by
  have hlook := h.claim hg hj
  have hflags : (g.claim j).workers j = (g.workers j).claimed := Group.setFlags_workers_self ..
  have hchosen := hlook.go rfl
  simp only [Frame.step, hflags] at hchosen
  by_cases hreleased : (g.workers j).released = true
  · rw [if_pos (by exact hreleased)] at hchosen
    have hfreed := (hchosen.go rfl).go rfl
    exact ⟨_, _, hfreed, fun _ => .head _⟩
  · rw [if_neg (by exact hreleased)] at hchosen
    have hclear : Reaches τ bias s (g.claim j) (some (.clearExecuting j)) freed := hchosen.go rfl
    -- nobody has scheduled it again
    have hnot : ((g.claim j).workers j).scheduled = false := by
      rw [hflags]
      rfl
    have hdone := hclear.go rfl
    simp only [Frame.step, hnot, Bool.false_eq_true, if_false] at hdone
    exact ⟨_, _, hdone, fun h => absurd h hreleased⟩

theorem Group.Ready.claim {j : Id n} (hg : g.Ready) (hj : g.tree.Has j) (flags : Flags) :
    ((g.claim j).setFlags j flags).Ready ∧
      (∀ i, ((g.claim j).setFlags j flags).tree.Has i ↔ i ≠ j ∧ g.tree.Has i) ∧
      ∀ i ≠ j, ((g.claim j).setFlags j flags).workers i = g.workers i := by
  have hhas : ∀ i, ((g.claim j).setFlags j flags).tree.Has i ↔ i ≠ j ∧ g.tree.Has i :=
    SignalTree.has_deschedule g.tree j
  have hworkers : ∀ i ≠ j, ((g.claim j).setFlags j flags).workers i = g.workers i := fun i hi =>
    (Group.setFlags_workers_of_ne hi _ _).trans (Group.setFlags_workers_of_ne hi _ _)
  refine ⟨hg.take hj hhas hworkers ?_, hhas, hworkers⟩
  change (g.claim j).words = _
  rw [Group.claim_eq, Group.words_setWord, Group.words_onLeaf]
  rfl

/-- The bits are finitely many, and every call takes one of them. -/
theorem Reaches.drain (h : Reaches τ bias s g none freed) (hg : g.Ready) (hid : g.tree.Has id)
    (hreleased : (g.workers id).released = true) :
    ∃ t, (pool n k).Run (By τ bias) s t ∧ id ∈ t.freed := by
  induction hm : Finset.card {i | g.tree.Has i} using Nat.strong_induction_on
    generalizing g freed with
  | h m ih =>
    obtain ⟨b, hcall⟩ := h.call
    obtain ⟨j, hj, hclaim⟩ := hcall.search hg hid (SignalTree.mem_routerOrder b id.router)
    obtain ⟨flags, freed', h', hfreed⟩ := hclaim.process hg hj
    obtain ⟨hg', hhas, hworkers⟩ := hg.claim hj flags
    by_cases hne : id = j
    · subst hne
      obtain ⟨t, hrun, -, -, rfl⟩ := h'
      exact ⟨t, hrun, hfreed hreleased⟩
    · refine ih _ ?_ h' hg' ((hhas id).2 ⟨hne, hid⟩) (by rwa [hworkers id hne]) rfl
      rw [← hm]
      refine Finset.card_lt_card (Finset.ssubset_iff_of_subset ?_ |>.2 ⟨j, ?_, ?_⟩)
      · intro i hi
        rw [Finset.mem_filter_univ] at hi ⊢
        exact ((hhas i).1 hi).2
      · rwa [Finset.mem_filter_univ]
      · rw [Finset.mem_filter_univ]
        exact fun h => ((hhas j).1 h).1 rfl

end Alone

theorem Pool.Tended.ready (hs : s.Tended) (htaking : ∀ id, .taking ∉ s.parts id) :
    s.group.Ready := by
  constructor
  · intro id hid
    have hbit : s.group.bit id = true := decide_eq_true hid
    obtain ⟨-, hb, -⟩ | ⟨part, hparts, hfits, -⟩ := hs.sound.attended id
    · rw [← hb, hbit]
    · rw [hbit] at hfits
      cases part with
      | taking => exact absurd (hparts ▸ Multiset.mem_singleton_self _) (htaking id)
      | _ => exact absurd hfits.1 nofun
  · intro r i
    rw [hs.counts r i, Finset.card_filter]
    refine Finset.sum_le_sum fun k _ => ?_
    have hle : (if s.group.bit (.of r i k) = true then 1 else 0) ≤ s.weight (.of r i k) := by
      unfold Pool.weight Contract.weight
      omega
    simpa [Group.bit] using hle

/-- **What is released is freed.** Let `release` have been called for a contract, each time when it
was scheduled or just claimed, and let no call attend the contract any more. Then its releaser has
run; or the contract is in the tree, and a thread that goes on calling `process_next_contract`, with
any bias, runs the releaser, once no call is left between its claim and the bit that it clears. -/
theorem released_of_run {group : Group n} (hgroup : group.Settled)
    (hcounted : group.tree.Counted) (h : (pool n k).Run Pool.Timely { group } s) {id : Id n}
    (hasked : id ∈ s.asked) (hquiet : s.parts id = 0) :
    id ∈ s.freed ∨ (s.group.tree.Has id ∧
      ∀ τ bias, s.threads τ = [] → (∀ j, .taking ∉ s.parts j) →
        ∃ t, (pool n k).Run (By τ bias) s t ∧ id ∈ t.freed) := by
  have hs : s.Tended :=
    h.invariant (.init hgroup hcounted) fun _ _ _ ht hl hnext => ht.step hl hnext
  refine (hs.answered id hasked).imp_right ?_
  rintro ⟨hreleased, hscheduled⟩
  have hscheduled : (s.group.workers id).scheduled = true := by
    refine hscheduled.resolve_right fun ⟨part, hpart, _⟩ => ?_
    rw [hquiet] at hpart
    exact absurd hpart (Multiset.notMem_zero _)
  have hhas : s.group.tree.Has id := by
    obtain ⟨-, hb, -⟩ | ⟨part, hparts, -⟩ := hs.sound.attended id
    · exact of_decide_eq_true (hb.trans hscheduled)
    · exact absurd (hquiet.symm.trans hparts) (Multiset.zero_ne_singleton part)
  refine ⟨hhas, fun τ bias hidle htaking => ?_⟩
  have hstart : Reaches τ bias s s.group none s.freed := ⟨s, .refl, rfl, hidle, rfl⟩
  exact hstart.drain (hs.ready htaking) hhas hreleased

/-! ### One contract -/

/-- A group with one contract, which is idle. -/
def oneIdle : Group 1 := (Group.create .idle {}).getD {}

theorem counted_oneScheduled : oneScheduled.tree.Counted :=
  (SignalTree.counted_empty 1).schedule (SignalTree.not_has_empty 0 1)

/-- The contract is released while it is scheduled. The thread that calls `process_next_contract`
after that frees it. -/
theorem released_of_run_scheduled :
    ∃ s t : Pool 1 2, (pool 1 2).Run Pool.Timely { group := oneScheduled } s ∧ 0 ∉ s.freed ∧
      (pool 1 2).Run (By 1 fun _ => 0) s t ∧ 0 ∈ t.freed := by
  have hplay : ((pool 1 2).playIf Pool.Timely (callBy 0 (.release 0) 2)
      { group := oneScheduled }).any (fun s => decide ((∀ τ, s.threads τ = []) ∧
        0 ∈ s.asked ∧ 0 ∉ s.freed)) = true := by decide +kernel
  obtain ⟨s, hplay, hidle, hasked, hnot⟩ := System.exists_of_any hplay
  have hrun := System.Run.of_playIf hplay
  have hparts : ∀ id, s.parts id = 0 := fun id => Finset.sum_eq_zero fun τ _ => by
    rw [hidle τ]
    rfl
  have hfreed := released_of_run settled_oneScheduled counted_oneScheduled hrun hasked (hparts 0)
  obtain ⟨t, hrun', hmem⟩ := (hfreed.resolve_left hnot).2 1 (fun _ => 0) (hidle 1) fun j => by
    simp [hparts]
  exact ⟨s, t, hrun, hnot, hrun', hmem⟩

/-- The contract is released while it is idle. Its flag is set, and nothing else has been done when
the call has returned. -/
theorem released_not_freed :
    ∃ s : Pool 1 1, (pool 1 1).Run System.Any { group := oneIdle } s ∧ 0 ∈ s.asked ∧
      (∀ τ, s.threads τ = []) ∧ 0 ∉ s.freed ∧ ¬s.group.tree.Has 0 := by
  exact (pool 1 1).exists_run (callBy 0 (.release 0) 3) (by decide +kernel)

end Congelado.Contract
