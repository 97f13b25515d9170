import Congelado.Contract.Threads

/-!
# Who executes a contract

From the `compare_exchange` that claims a contract to the step that clears `EXECUTING`, and from the
step that marks it as scheduled to the one that sets its bit, a contract is attended by a call. The
invariant says for every contract how the calls that attend it, its flags and its bit go together
(`Attended`): there is at most one such call, and what it has to do yet determines the flags and the
bit. `Acts.attended` is the proof for one contract, and `Pool.Sound.go` the one for all of them.

`try_claim_execution` does not look at `EXECUTING`. A thread that has found an id in the tree, and
comes to the `compare_exchange` only when the contract is being executed and was scheduled again,
becomes a second one to execute it. So it matters when `schedule` is called: not while some thread
has found the contract in the tree and has neither given it up nor cleared its bit (`Waits`).
-/

namespace Congelado.Contract

open Transition

/-! ### One contract -/

section Contract

variable {f f' : Flags} {b b' : Bool} {p p' : Option Part} {held held' claims marks : Prop}
    {shift : Fin 8 → BitVec 64 → BitVec 64} {parts : Multiset Part} {part : Part}

/-- What holds of the flags and of the bit while a call has the part. -/
def Part.Fits (f : Flags) (b : Bool) : Part → Prop
  | .taking => b = true ∧ f.scheduled = false ∧ f.executing = true
  | .raising | .filing => b = false ∧ f.scheduled = true ∧ f.executing = false
  | .lowering | .entering | .working | .freeing | .erasing => b = false ∧ f.executing = true

/-- A contract that no call attends is in the tree exactly if it is scheduled. Otherwise one call
attends it; and while another one holds it, it is not scheduled. -/
def Attended (parts : Multiset Part) (f : Flags) (b : Bool) (held : Prop) : Prop :=
  (parts = 0 ∧ b = f.scheduled ∧ f.executing = false) ∨
    ∃ part, parts = {part} ∧ part.Fits f b ∧ (held → f.scheduled = false)

/-- The parts of all calls, with that of one call. -/
def joined : Option Part → Multiset Part → Multiset Part
  | none, parts => parts
  | some part, parts => part ::ₘ parts

/-- A call that attends a contract is the only one. -/
theorem Attended.alone (h : Attended (part ::ₘ parts) f b held) :
    parts = 0 ∧ part.Fits f b ∧ (held → f.scheduled = false) := by
  obtain ⟨h0, -⟩ | ⟨part', hparts, hfits, hheld⟩ := h
  · exact absurd h0 (Multiset.cons_ne_zero)
  · obtain ⟨rfl, rfl⟩ := (Multiset.singleton_eq_cons_iff _).1 hparts.symm
    exact ⟨rfl, hfits, hheld⟩

/-- What was found in the tree is held from then on. -/
theorem Attended.hold (h : Attended parts f b held) (hheld : held' → held ∨ b = true) :
    Attended parts f b held' := by
  refine h.imp_right fun ⟨part, hparts, hfits, hnot⟩ => ⟨part, hparts, hfits, fun h' => ?_⟩
  obtain hold | rfl := hheld h'
  · exact hnot hold
  · -- the bit of a contract that is attended is set only while it is taken
    cases part with
    | taking => exact hfits.2.1
    | _ => exact absurd hfits.1 nofun

/-- `SCHEDULED` is set by `schedule` only. -/
theorem Acts.scheduled (h : Acts claims marks p f b p' f' b' shift) (hf : f'.scheduled = true) :
    f.scheduled = true ∨ marks := by
  cases h with
  | claims => cases hf
  | erases => cases hf
  | marks _ _ h => exact .inr h
  | _ => exact .inl hf

/-- **One step, one contract.** -/
theorem Acts.attended (h : Acts claims marks p f b p' f' b' shift)
    (hs : Attended (joined p parts) f b held) (hclaims : claims → held)
    (hmarks : marks → ¬held ∧ .taking ∉ parts) (hheld : held' → held) :
    Attended (joined p' parts) f' b' held' := by
  cases h with
  | claims _ h hf =>
    obtain ⟨hparts, hb, -⟩ | ⟨part, -, -, hnot⟩ := hs
    · exact .inr ⟨.taking, congrArg _ hparts, ⟨hb.trans hf, rfl, rfl⟩, fun _ => rfl⟩
    · -- it is held and scheduled, so that no other call attends it
      exact absurd (hf.symm.trans (hnot (hclaims h))) nofun
  | unfiles =>
    obtain ⟨rfl, hfits, hnot⟩ := hs.alone
    exact .inr ⟨.lowering, rfl, ⟨rfl, hfits.2.2⟩, fun h => hnot (hheld h)⟩
  | lowers | starts | frees | freed | raises =>
    obtain ⟨rfl, hfits, hnot⟩ := hs.alone
    exact .inr ⟨_, rfl, hfits, fun h => hnot (hheld h)⟩
  | finishes =>
    obtain ⟨rfl, hfits, hnot⟩ := hs.alone
    split
    · rename_i hf
      exact .inr ⟨.raising, rfl, ⟨hfits.1, hf, rfl⟩, fun h => hnot (hheld h)⟩
    · rename_i hf
      exact .inl ⟨rfl, hfits.1.trans (Bool.eq_false_of_not_eq_true hf).symm, rfl⟩
  | erases =>
    obtain ⟨rfl, hfits, -⟩ := hs.alone
    exact .inl ⟨rfl, hfits.1, rfl⟩
  | files =>
    obtain ⟨rfl, hfits, -⟩ := hs.alone
    exact .inl ⟨rfl, hfits.2.1.symm, hfits.2.2⟩
  | marks _ _ h =>
    obtain ⟨hnot, htaking⟩ := hmarks h
    obtain ⟨rfl, hb, hexecuting⟩ | ⟨part, rfl, hfits, -⟩ := hs
    · split
      · rename_i hbefore
        have hf : f.scheduled = true := hbefore.resolve_right (by simp [hexecuting])
        exact .inl ⟨rfl, hb.trans hf, hexecuting⟩
      · rename_i hbefore
        have hf : f.scheduled = false := by simpa using (not_or.1 hbefore).1
        exact .inr ⟨.raising, rfl, ⟨hb.trans hf, rfl, hexecuting⟩, fun h => absurd (hheld h) hnot⟩
    · -- the call that attends it will see the flag, or has seen it
      have hbefore : f.scheduled = true ∨ f.executing = true := by
        cases part with
        | raising | filing => exact .inl hfits.2.1
        | taking => exact .inr hfits.2.2
        | _ => exact .inr hfits.2
      rw [if_pos hbefore]
      refine .inr ⟨part, rfl, ?_, fun h => absurd (hheld h) hnot⟩
      cases part with
      | taking => exact absurd (Multiset.mem_singleton_self _) htaking
      | raising | filing => exact ⟨hfits.1, rfl, hfits.2.2⟩
      | _ => exact hfits
  | asks =>
    refine hs.imp id fun ⟨part, hparts, hfits, hnot⟩ => ⟨part, hparts, ?_, fun h => hnot (hheld h)⟩
    cases part <;> exact hfits

end Contract

/-! ### The pool -/

variable {n k : ℕ} {id : Id n} {s t : Pool n k} {turn : Turn n k} {τ : Fin k} {frame : Frame n}
    {rest frames : List (Frame n)}

/-- The part that a call has for the contract. -/
def Frame.part (id : Id n) (frame : Frame n) : Option Part :=
  frame.role.bind fun role => if role.1 = id then some role.2 else none

/-- The contract that the step marks as scheduled. -/
def Frame.marks : Frame n → Option (Id n)
  | .scheduleMark id => some id
  | _ => none

/-- The parts that calls have for the contract. -/
def partsOf (id : Id n) : List (Frame n) → Multiset Part
  | [] => 0
  | frame :: rest => joined (frame.part id) (partsOf id rest)

theorem joined_add (p : Option Part) (parts parts' : Multiset Part) :
    joined p parts + parts' = joined p (parts + parts') := by
  cases p with
  | none => rfl
  | some part => exact Multiset.cons_add part parts parts'

theorem mem_joined {p : Option Part} {part : Part} {parts : Multiset Part} :
    part ∈ joined p parts ↔ p = some part ∨ part ∈ parts := by
  cases p with
  | none => simp [joined]
  | some part' => simp [joined, eq_comm]

theorem mem_partsOf {part : Part} :
    part ∈ partsOf id frames ↔ ∃ frame ∈ frames, frame.part id = some part := by
  induction frames with
  | nil => simp [partsOf]
  | cons frame rest ih => simp [partsOf, mem_joined, ih]

theorem partsOf_toList_append (id : Id n) (frame : Option (Frame n)) (rest : List (Frame n)) :
    partsOf id (frame.toList ++ rest) = joined (frame.bind (Frame.part id)) (partsOf id rest) := by
  cases frame <;> rfl

theorem part_of_bind (id : Id n) (frame : Option (Frame n)) : frame.bind (Frame.part id) =
    (frame.bind Frame.role).bind fun role => if role.1 = id then some role.2 else none := by
  cases frame <;> rfl

theorem part_of_role {frame : Option (Frame n)} {j : Id n} {p : Option Part}
    (h : frame.bind Frame.role = p.map (j, ·)) (id : Id n) :
    frame.bind (Frame.part id) = if j = id then p else none := by
  rw [part_of_bind, h]
  cases p <;> simp

namespace Pool

/-- Some call has found the contract in the tree. -/
def Holds (s : Pool n k) (id : Id n) : Prop :=
  ∃ τ, ∃ frame ∈ s.threads τ, frame.holds = some id

/-- The frame whose step it is. -/
def moving (s : Pool n k) (turn : Turn n k) : Option (Frame n) :=
  match turn.act with
  | .call _ => none
  | .go _ => (s.threads turn.thread).head?

/-- No call holds the contract, or has claimed it and not cleared its bit yet. -/
def Spared (s : Pool n k) (id : Id n) : Prop :=
  ∀ τ, ∀ frame ∈ s.threads τ, frame.holds ≠ some id ∧ frame.part id ≠ some .taking

instance (s : Pool n k) (id : Id n) : Decidable (s.Spared id) :=
  inferInstanceAs (Decidable (∀ τ, ∀ frame ∈ s.threads τ, _))

def parts (s : Pool n k) (id : Id n) : Multiset Part := ∑ τ, partsOf id (s.threads τ)

/-- The parts that the calls of the other threads have. -/
def others (s : Pool n k) (τ : Fin k) (id : Id n) : Multiset Part :=
  ∑ τ' ∈ Finset.univ.erase τ, partsOf id (s.threads τ')

theorem parts_eq (s : Pool n k) (τ : Fin k) (id : Id n) :
    s.parts id = partsOf id (s.threads τ) + s.others τ id :=
  (Finset.add_sum_erase _ _ (Finset.mem_univ τ)).symm

theorem parts_update (ht : t.threads = Function.update s.threads τ frames) (id : Id n) :
    t.parts id = partsOf id frames + s.others τ id := by
  rw [parts_eq t τ, ht, Function.update_self]
  refine congrArg _ (Finset.sum_congr rfl fun τ' hτ' => ?_)
  rw [ht, Function.update_of_ne (Finset.ne_of_mem_erase hτ')]

/-- What a step of a thread does in the pool, whose top frame it is. -/
inductive Moves (s t : Pool n k) (frame : Frame n) : Prop
  /-- It reads, and may find a contract in the tree. -/
  | idles (group : t.group = s.group) (parts : t.parts = s.parts)
      (held : ∀ id, t.Holds id → s.Holds id ∨ s.group.tree.Has id)
      (sees : ∀ τ, ∀ f ∈ t.threads τ, (∃ τ', f ∈ s.threads τ') ∨ f.Sees s.group)
      (asks : frame.asks = none) (frees : frame.frees = none)
  /-- It acts on one contract. -/
  | acts (id : Id n) {p p' : Option Part} {shift : Fin 8 → BitVec 64 → BitVec 64}
      {rest : Multiset Part}
      (act : Acts (frame.holds = some id) (frame = .scheduleMark id) p (s.group.workers id)
        (s.group.bit id) p' (t.group.workers id) (t.group.bit id) shift)
      (role : frame.role = p.map (id, ·)) (parts : s.parts id = joined p rest)
      (parts' : t.parts id = joined p' rest)
      (others : ∀ j ≠ id, t.parts j = s.parts j ∧ t.group.workers j = s.group.workers j ∧
        t.group.bit j = s.group.bit j)
      (held : ∀ id, t.Holds id → s.Holds id)
      (sees : ∀ τ, ∀ f ∈ t.threads τ, (∃ τ', f ∈ s.threads τ') ∨ f.holds = none)
      (words : t.group.words =
        Function.update s.group.words id.router (shift id.branch (s.group.word id)))

/-- A frame that is there after a thread has moved was there before, or is one of its new ones. -/
theorem mem_update {τ' : Fin k} (ht : t.threads = Function.update s.threads τ frames)
    {f : Frame n} (hf : f ∈ t.threads τ') : f ∈ s.threads τ' ∨ f ∈ frames := by
  rw [ht] at hf
  by_cases hτ : τ' = τ
  · subst hτ
    rw [Function.update_self] at hf
    exact .inr hf
  · rw [Function.update_of_ne hτ] at hf
    exact .inl hf

theorem moves (hstack : s.threads τ = frame :: rest) (hparks : frame.parks = false)
    (hsees : frame.Sees s.group) (exchange : Bool) :
    Moves s (s.advance τ exchange frame rest) frame := by
  have hframe : frame ∈ s.threads τ := hstack ▸ List.mem_cons_self
  have hdoes := frame.does s.group hparks exchange hsees
  set t := s.advance τ exchange frame rest
  have hthreads : t.threads =
      Function.update s.threads τ ((frame.step exchange s.group).2.toList ++ rest) := rfl
  have hgroup : t.group = (frame.step exchange s.group).1 := rfl
  rw [← hgroup] at hdoes
  generalize (frame.step exchange s.group).2 = frame' at hdoes hthreads
  -- only the part of the frame that moves is exchanged
  have hbefore : ∀ id, s.parts id = joined (frame.part id) (partsOf id rest + s.others τ id) := by
    intro id
    rw [parts_eq s τ, hstack, partsOf, joined_add]
  have hafter : ∀ id, t.parts id =
      joined (frame'.bind (Frame.part id)) (partsOf id rest + s.others τ id) := by
    intro id
    rw [parts_update hthreads, partsOf_toList_append, joined_add]
  have hmem : ∀ {τ' f}, f ∈ t.threads τ' → (∃ τ'', f ∈ s.threads τ'') ∨ frame' = some f := by
    intro τ' f hf
    obtain hf | hf := mem_update hthreads hf
    · exact .inl ⟨τ', hf⟩
    · obtain hf | hf := List.mem_append.1 hf
      · exact .inr (Option.mem_toList.1 hf)
      · exact .inl ⟨τ, hstack ▸ List.mem_cons_of_mem _ hf⟩
  cases hdoes with
  | idles group role holds sees asks frees =>
    refine .idles group ?_ ?_ (fun τ' f hf => (hmem hf).imp_right (sees f)) asks frees
    · funext id
      rw [hafter, hbefore, part_of_bind, role]
      rfl
    · rintro id ⟨τ', f, hf, hholds⟩
      obtain ⟨τ'', hf⟩ | rfl := hmem hf
      · exact .inl ⟨τ'', f, hf, hholds⟩
      · exact (holds id hholds).imp_left fun h => ⟨τ, frame, hframe, h⟩
  | acts j act role role' holds others words =>
    have hpart := @part_of_role _ (some frame) _ _ role
    have hpart' := part_of_role role'
    refine .acts j act role (show _ = joined _ (partsOf j rest + s.others τ j) from ?_) ?_
      (fun id hid => ⟨?_, others id hid⟩) ?_ ?_ words
    · rw [hbefore, show frame.part j = _ from hpart j, if_pos rfl]
    · rw [hafter, hpart', if_pos rfl]
    · rw [hafter, hbefore, show frame.part id = _ from hpart id, hpart', if_neg hid.symm,
        if_neg hid.symm]
    · rintro id ⟨τ', f, hf, hholds⟩
      obtain ⟨τ'', hf⟩ | rfl := hmem hf
      · exact ⟨τ'', f, hf, hholds⟩
      · exact absurd (holds.symm.trans hholds) nofun
    · intro τ' f hf
      obtain hf | rfl := hmem hf
      · exact .inl hf
      · exact .inr holds

/-- The invariant: every contract is attended as it should be, and the claims have seen what they
go on with. -/
structure Sound (s : Pool n k) : Prop where
  attended : ∀ id, Attended (s.parts id) (s.group.workers id) (s.group.bit id) (s.Holds id)
  sees : ∀ τ, ∀ frame ∈ s.threads τ, frame.Sees s.group

/-- A step of the pool is a call, or the step of the frame at the top of a stack. -/
theorem step_cases (h : (pool n k).next turn s = some t) :
    (∃ operation : Operation n,
      t = s.setThread turn.thread (operation.enter :: s.threads turn.thread)) ∨
    ∃ exchange frame rest, turn.act = .go exchange ∧ s.threads turn.thread = frame :: rest ∧
      t = s.advance turn.thread exchange frame rest := by
  obtain ⟨τ, act⟩ := turn
  cases act with
  | call operation =>
    obtain ⟨-, ht⟩ := Option.ite_none_right_eq_some.1 h
    exact .inl ⟨operation, (Option.some.inj ht).symm⟩
  | go exchange =>
    change s.go τ exchange = some t at h
    unfold go at h
    split at h
    · cases h
    · rename_i frame rest hstack
      obtain ⟨-, ht⟩ := Option.ite_none_left_eq_some.1 h
      exact .inr ⟨exchange, frame, rest, rfl, hstack, (Option.some.inj ht).symm⟩

/-- A call that begins has no part yet. -/
theorem parts_call (s : Pool n k) (τ : Fin k) (operation : Operation n) :
    (s.setThread τ (operation.enter :: s.threads τ)).parts = s.parts := by
  funext id
  have hthreads : (s.setThread τ (operation.enter :: s.threads τ)).threads =
      Function.update s.threads τ (operation.enter :: s.threads τ) := rfl
  rw [parts_update hthreads, parts_eq s τ]
  cases operation <;> rfl

theorem Sound.call (hs : s.Sound) (τ : Fin k) (operation : Operation n) :
    (s.setThread τ (operation.enter :: s.threads τ)).Sound := by
  have hmem : ∀ {τ' f}, f ∈ (s.setThread τ (operation.enter :: s.threads τ)).threads τ' →
      (∃ τ'', f ∈ s.threads τ'') ∨ f = operation.enter := by
    intro τ' f hf
    obtain hf | hf := mem_update (s := s) rfl hf
    · exact .inl ⟨τ', hf⟩
    · exact (List.mem_cons.1 hf).symm.imp_left fun hf => ⟨τ, hf⟩
  constructor
  · intro id
    rw [parts_call]
    refine (hs.attended id).hold fun ⟨τ', f, hf, hholds⟩ => .inl ?_
    obtain ⟨τ'', hf⟩ | rfl := hmem hf
    · exact ⟨τ'', f, hf, hholds⟩
    · cases operation <;> cases hholds
  · intro τ' f hf
    obtain ⟨τ'', hf⟩ | rfl := hmem hf
    · exact hs.sees τ'' f hf
    · cases operation <;> trivial

/-- **A step keeps the invariant**, if it is not one of `schedule` for a contract that some call is
about to take. -/
theorem Sound.go (hs : s.Sound) (h : Moves s t frame) (hframe : frame ∈ s.threads τ)
    (hmarks : ∀ id, frame = .scheduleMark id → s.Spared id) : t.Sound := by
  cases h with
  | idles group parts held sees _ _ =>
    constructor
    · intro id
      rw [parts, group]
      exact (hs.attended id).hold fun h => (held id h).imp_right decide_eq_true
    · intro τ f hf
      rw [group]
      obtain ⟨τ', hf⟩ | hsees := sees τ f hf
      · exact hs.sees τ' f hf
      · exact hsees
  | acts j act role parts parts' others held sees _ =>
    constructor
    · intro id
      have hid := hs.attended id
      by_cases hj : id = j
      · subst hj
        rw [parts] at hid
        rw [parts']
        -- a `schedule` is not made while a thread holds or takes the contract
        refine act.attended hid (fun h => ⟨τ, frame, hframe, h⟩) (fun h => ⟨?_, fun hmem => ?_⟩)
          (held id)
        · rintro ⟨τ', f, hf, hholds⟩
          exact (hmarks id h τ' f hf).1 hholds
        · have htaking : .taking ∈ s.parts id := parts ▸ mem_joined.2 (.inr hmem)
          obtain ⟨τ', -, htaking⟩ := Multiset.mem_sum.1 htaking
          obtain ⟨f, hf, htaking⟩ := mem_partsOf.1 htaking
          exact (hmarks id h τ' f hf).2 htaking
      · obtain ⟨hparts, hflags, hbit⟩ := others id hj
        rw [hparts, hflags, hbit]
        exact hid.hold fun h => .inl (held id h)
    · intro τ f hf
      obtain ⟨τ', hf⟩ | hnone := sees τ f hf
      · have hsees := hs.sees τ' f hf
        cases f with
        -- what was loaded before is still right, unless it was scheduled since
        | claimTest id current =>
          intro hscheduled
          by_cases hj : id = j
          · subst hj
            obtain h | h := act.scheduled hscheduled
            · exact hsees h
            · exact absurd rfl (hmarks id h τ' _ hf).1
          · rw [(others id hj).2.1] at hscheduled
            exact hsees hscheduled
        | claimExchange => exact hsees
        | _ => trivial
      · cases f <;> trivial

end Pool

/-! ### Runs -/

/-- `schedule` marks no contract that a call is about to take, and `deschedule` takes none out of
the tree. -/
def Waits (s : Pool n k) (turn : Turn n k) : Prop :=
  ∀ frame ∈ s.moving turn, frame.parks = false ∧ ∀ id ∈ frame.marks, s.Spared id

instance (s : Pool n k) (turn : Turn n k) : Decidable (Waits s turn) :=
  inferInstanceAs (Decidable (∀ frame ∈ s.moving turn, _))

/-- Nothing is being executed, and what is scheduled is in the tree. -/
def Group.Settled (g : Group n) : Prop :=
  ∀ id, (g.workers id).executing = false ∧ ((g.workers id).scheduled = true ↔ g.tree.Has id)

namespace Pool

theorem Sound.init {group : Group n} (h : group.Settled) : ({ group } : Pool n k).Sound where
  attended id := by
    have hparts : ({ group } : Pool n k).parts id = 0 := Finset.sum_eq_zero fun _ _ => rfl
    refine .inl ⟨hparts, ?_, (h id).1⟩
    exact (Bool.decide_congr (h id).2.symm).trans Bool.decide_eq_true
  sees _ _ hmem := absurd hmem List.not_mem_nil

theorem Sound.step (hs : s.Sound) (hturn : Waits s turn) (h : (pool n k).next turn s = some t) :
    t.Sound := by
  obtain ⟨operation, rfl⟩ | ⟨exchange, frame, rest, hact, hstack, rfl⟩ := step_cases h
  · exact hs.call turn.thread operation
  · have hframe : frame ∈ s.threads turn.thread := hstack ▸ List.mem_cons_self
    have hmoving : frame ∈ s.moving turn := by simp [moving, hact, hstack]
    obtain ⟨hparks, hmarks⟩ := hturn frame hmoving
    refine hs.go (moves hstack hparks (hs.sees _ _ hframe) exchange) hframe ?_
    rintro id rfl
    exact hmarks id rfl

/-- The calls that attend a contract are those of one thread. -/
theorem Sound.apart (hs : s.Sound) {τ τ' : Fin k} {part part' : Part}
    (h : part ∈ partsOf id (s.threads τ)) (h' : part' ∈ partsOf id (s.threads τ')) : τ = τ' := by
  by_contra hne
  have hothers : part' ∈ s.others τ id :=
    Multiset.mem_sum.2 ⟨τ', Finset.mem_erase.2 ⟨Ne.symm hne, Finset.mem_univ τ'⟩, h'⟩
  have hmine := Multiset.card_pos_iff_exists_mem.2 ⟨_, h⟩
  have htheirs := Multiset.card_pos_iff_exists_mem.2 ⟨_, hothers⟩
  have hcard : (s.parts id).card ≤ 1 := by
    obtain ⟨h0, -⟩ | ⟨part, h1, -⟩ := hs.attended id
    · simp [h0]
    · simp [h1]
  rw [parts_eq s τ, Multiset.card_add] at hcard
  omega

end Pool

/-- **No two threads execute one contract**, if no contract is marked as scheduled while some thread
has found it in the tree and has not cleared its bit. -/
theorem exclusive_of_run {group : Group n} (hgroup : group.Settled)
    (h : (pool n k).Run Waits { group } s) {τ τ' : Fin k} {id : Id n}
    (hτ : .running id ∈ s.threads τ) (hτ' : .running id ∈ s.threads τ') : τ = τ' := by
  have hs : s.Sound := h.invariant (.init hgroup) fun _ _ _ ht hl hnext => ht.step hl hnext
  have hworking : (Frame.running id).part id = some .working := if_pos rfl
  exact hs.apart (mem_partsOf.2 ⟨_, hτ, hworking⟩) (mem_partsOf.2 ⟨_, hτ', hworking⟩)

/-! ### Two threads and one contract -/

/-- A group with one contract, which is scheduled. -/
def oneScheduled : Group 1 := (Group.create .scheduled {}).getD {}

theorem settled_oneScheduled : oneScheduled.Settled := by
  intro id
  have hhas : oneScheduled.tree.Has id ↔ id = 0 := by
    refine (SignalTree.has_schedule _ 0 id).trans (or_iff_left ?_)
    change ¬id.bit ∈ bits 0
    simp
  by_cases hid : id = 0
  · subst hid
    exact ⟨rfl, iff_of_true rfl (hhas.2 rfl)⟩
  · have hflags : oneScheduled.workers id = {} := Function.update_of_ne hid _ _
    simp [hflags, hhas, hid]

/-- A thread makes a call, and takes steps. -/
def callBy {k : ℕ} (τ : Fin k) (operation : Operation 1) (count : ℕ) : List (Turn 1 k) :=
  ⟨τ, .call operation⟩ :: List.replicate count ⟨τ, .go true⟩

/-- Two threads take the same id from the tree. The second one finds it claimed, and the contract is
scheduled again after that. -/
theorem exclusive_of_run_race :
    ∃ s : Pool 1 2, (pool 1 2).Run Waits { group := oneScheduled } s ∧ .running 0 ∈ s.threads 0 ∧
      .running 0 ∉ s.threads 1 := by
  have hrace : ((pool 1 2).playIf Waits (callBy 1 (.process 0) 2 ++ callBy 0 (.process 0) 9 ++
      [⟨1, .go true⟩, ⟨1, .go true⟩] ++ callBy 0 (.schedule 0) 3) { group := oneScheduled }).any
      (fun s => decide (Frame.running 0 ∈ s.threads 0)) = true := by decide +kernel
  obtain ⟨s, hplay, hmem⟩ := System.exists_of_any hrace
  have hrun := System.Run.of_playIf hplay
  refine ⟨s, hrun, hmem, fun h => ?_⟩
  exact absurd (exclusive_of_run settled_oneScheduled hrun hmem h) (by decide)

/-- The first thread runs the worker, which schedules its contract again. The second one, which has
taken the id before, comes to the `compare_exchange` now. -/
theorem executed_twice :
    ∃ s : Pool 1 2, (pool 1 2).Run System.Any { group := oneScheduled } s ∧
      .running 0 ∈ s.threads 0 ∧ .running 0 ∈ s.threads 1 := by
  exact (pool 1 2).exists_run (callBy 1 (.process 0) 2 ++ callBy 0 (.process 0) 9 ++
    callBy 0 (.schedule 0) 3 ++ List.replicate 6 ⟨1, .go true⟩) (by decide +kernel)

end Congelado.Contract
