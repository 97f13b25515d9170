import Congelado.Routing.Layout

/-!
# Dispatch on the registered forest

Two walks of a forest along the segments of a path. `lookup` is what a route table is for: each
step picks the child whose literal equals the segment if there is one, otherwise the param
child, otherwise the wildcard (`pick`). `walk` is what the table does: each step scans the
children in the order in which they are stored, beginning at the bucket of the segment, and
takes the first one that matches, where a param child matches everything (`step`).

The two steps agree unless the scan meets a param child before the literal (`Shadows`). The
two choices of a handler agree unless a handler was registered for another method that has the
same byte of the mask. `Clear` is the exact condition under which the two answers are the
same.
-/

namespace Congelado.Routing

open Sorting List Option

variable {H M : Type}

/-! ### Nodes and their order -/

/-- A node of the forest. -/
structure Node (H M : Type) where
  label : Label H M
  children : Forest H M

namespace Node

variable (n : Node H M)

def segment : Text := stripSlash n.label.path

def kind : EdgeKind := (edge n.segment).1

def literal : Text := (edge n.segment).2

/-- The node is the literal `seg`. -/
def Names (seg : Text) (n : Node H M) : Prop := n.kind = .path ∧ n.literal = seg

instance (seg : Text) (n : Node H M) : Decidable (n.Names seg) :=
  inferInstanceAs (Decidable (_ ∧ _))

end Node

/-- The root above a forest. -/
abbrev rootNode (forest : Forest H M) : Node H M := ⟨{ path := ['/'] }, forest⟩

/-- A node joins the run that follows it. -/
def joinRun (n : Node H M) : List (List (Node H M)) → List (List (Node H M))
  | [] => [[n]]
  | run :: runs => (n :: run) :: runs

namespace Forest

/-- The siblings of the first level. -/
def siblings : Forest H M → List (Node H M)
  | .nil => []
  | .route label rest => ⟨label, .nil⟩ :: rest.siblings
  | .router label children rest => ⟨label, children⟩ :: rest.siblings

/-- The siblings in runs that stand next to each other in the array: a router that has children
ends its run. -/
def runs : Forest H M → List (List (Node H M))
  | .nil => []
  | .route label rest => joinRun ⟨label, .nil⟩ rest.runs
  | .router label children rest =>
    if children.width = 0 then joinRun ⟨label, children⟩ rest.runs
    else [⟨label, children⟩] :: rest.runs

end Forest

/-- The comparison of two siblings, `less` without the base routers. -/
def lessPath (groupSize : ℕ) (left right : Text) : Bool :=
  if left = ['*'] then false
  else if right = ['*'] then true
  else (fnv1a left).toNat % groupSize < (fnv1a right).toNat % groupSize

variable (alg : Algorithm)

def sortNodes (run : List (Node H M)) : List (Node H M) :=
  alg.sort (fun a b => lessPath run.length a.segment b.segment) run

variable (forest : Forest H M)

/-- The siblings in the order of the table. -/
def order : List (Node H M) :=
  forest.runs.flatMap (sortNodes alg)

/-- The siblings in the order in which a segment is looked for. -/
def probeOrder (seg : Text) : List (Node H M) :=
  (order alg forest).rotate (fnv1a seg).toNat

theorem flatten_joinRun (n : Node H M) (runs : List (List (Node H M))) :
    (joinRun n runs).flatten = n :: runs.flatten := by
  cases runs <;> rfl

theorem flatten_runs : forest.runs.flatten = forest.siblings := by
  induction forest with
  | nil => rfl
  | route label rest ih => rw [Forest.runs, flatten_joinRun, ih, Forest.siblings]
  | router label children rest _ ih =>
    rw [Forest.runs, Forest.siblings]
    split_ifs
    · rw [flatten_joinRun, ih]
    · rw [flatten_cons, ih]
      rfl

theorem order_perm :
    (order alg forest).Perm forest.siblings := by
  rw [← flatten_runs, order]
  induction forest.runs with
  | nil => exact .nil
  | cons run runs ih => exact (alg.perm _ _).append ih

theorem probeOrder_perm (seg : Text) :
    (probeOrder alg forest seg).Perm forest.siblings :=
  (rotate_perm _ _).trans (order_perm alg forest)

/-! ### The two steps -/

section Steps

variable {a b c : Node H M} {α : Type} {p : α → Bool}

/-- The scan of `find_child`: the first child that matches, or the wildcard seen last. -/
def scan {α : Type} (kind : α → EdgeKind) (literal : α → Text) (seg : Text) :
    List α → Option α → Option α
  | [], wild => wild
  | x :: rest, wild =>
    match kind x with
    | .path => if literal x = seg then some x else scan kind literal seg rest wild
    | .param => some x
    | .wild => scan kind literal seg rest (some x)

/-- The child that the table takes. -/
def step (alg : Algorithm) (seg : Text) (forest : Forest H M) : Option (Node H M) :=
  scan Node.kind Node.literal seg (probeOrder alg forest seg) none

/-- The child that is meant: the literal, otherwise the param, otherwise the wildcard. -/
def pick (seg : Text) (siblings : List (Node H M)) : Option (Node H M) :=
  siblings.find? (·.Names seg) <|> siblings.find? (·.kind = .param) <|>
    siblings.find? (·.kind = .wild)

/-- A param child is met before the literal that equals the segment. -/
def Shadows (alg : Algorithm) (seg : Text) (forest : Forest H M) : Prop :=
  ∃ p c, p.kind = .param ∧ c.Names seg ∧ [p, c].Sublist (probeOrder alg forest seg)

theorem not_shadows
    (h : ∀ p ∈ forest.siblings, ∀ c ∈ forest.siblings, p.kind = .param → ¬c.Names seg) :
    ¬Shadows alg seg forest := by
  rintro ⟨p, c, hkind, hname, hsub⟩
  have hmem : ∀ n ∈ [p, c], n ∈ forest.siblings := fun n hn =>
    (probeOrder_perm alg forest seg).mem_iff.1 (hsub.subset hn)
  exact h p (hmem p (by simp)) c (hmem c (by simp)) hkind hname

/-- The segments of siblings are told apart: literals differ, and there are at most one param
and one wildcard. -/
def Forest.Distinct (forest : Forest H M) : Prop :=
  (forest.siblings.map fun n => edge n.segment).Nodup

variable {alg : Algorithm} {seg : Text} {forest : Forest H M}

theorem Forest.Distinct.eq (h : forest.Distinct) (ha : a ∈ forest.siblings)
    (hb : b ∈ forest.siblings) (hedge : edge a.segment = edge b.segment) : a = b :=
  inj_on_of_nodup_map h ha hb hedge

theorem edge_of_kind {path : Text} (h : (edge path).1 ≠ .path) : (edge path).2 = [] := by
  unfold edge determineNodeKind at h ⊢
  split_ifs at h ⊢ <;> simp_all

theorem Forest.Distinct.eq_of_kind (h : forest.Distinct)
    (ha : a ∈ forest.siblings) (hb : b ∈ forest.siblings) (hkind : a.kind ≠ .path)
    (hsame : a.kind = b.kind) : a = b := by
  have hkind' : b.kind ≠ .path := hsame ▸ hkind
  refine h.eq ha hb (Prod.ext hsame ?_)
  rw [edge_of_kind hkind, edge_of_kind hkind']

theorem Forest.Distinct.eq_of_names (h : forest.Distinct)
    (ha : a ∈ forest.siblings) (hb : b ∈ forest.siblings) (hna : a.Names seg) (hnb : b.Names seg) :
    a = b :=
  h.eq ha hb (Prod.ext (hna.1.trans hnb.1.symm) (hna.2.trans hnb.2.symm))

/-- What can be found in one way only is found in any order. -/
theorem find?_eq_of_perm {l l' : List α} (hperm : l.Perm l')
    (hunique : ∀ a ∈ l', ∀ b ∈ l', p a = true → p b = true → a = b) : l.find? p = l'.find? p := by
  cases hfind : l.find? p with
  | none =>
    rw [find?_eq_none] at hfind
    exact (find?_eq_none.2 fun x hx => hfind x (hperm.mem_iff.2 hx)).symm
  | some a =>
    cases hfind' : l'.find? p with
    | none =>
      rw [find?_eq_none] at hfind'
      exact absurd (find?_some hfind) (hfind' a (hperm.mem_iff.1 (mem_of_find?_eq_some hfind)))
    | some b =>
      rw [hunique a (hperm.mem_iff.1 (mem_of_find?_eq_some hfind)) b
        (mem_of_find?_eq_some hfind') (find?_some hfind) (find?_some hfind')]

section Scan

variable {l : List (Node H M)} {wild : Option (Node H M)}

/-- The scan stops at the first param or literal. -/
theorem scan_eq_of_find? {x : Node H M}
    (h : (l.find? fun n => n.kind = .param ∨ n.Names seg) = some x) :
    scan Node.kind Node.literal seg l wild = some x := by
  induction l generalizing wild with
  | nil => cases h
  | cons n l ih =>
    rw [find?_cons] at h
    rw [scan]
    cases hkind : n.kind with
    | path =>
      by_cases hname : n.literal = seg
      · simpa [hkind, Node.Names, hname] using h
      · simp only [if_neg hname]
        exact ih (by simpa [hkind, Node.Names, hname] using h)
    | param => simpa [hkind] using h
    | wild => exact ih (by simpa [hkind, Node.Names] using h)

/-- A scan that nothing stops ends with a wildcard. -/
theorem scan_eq_of_find?_eq_none (h : (l.find? fun n => n.kind = .param ∨ n.Names seg) = none) :
    scan Node.kind Node.literal seg l wild = ((l.filter (·.kind = .wild)).getLast?).or wild := by
  induction l generalizing wild with
  | nil => rfl
  | cons n l ih =>
    rw [find?_eq_none] at h
    have hrest : (l.find? fun n => n.kind = .param ∨ n.Names seg) = none :=
      find?_eq_none.2 fun x hx => h x (.tail _ hx)
    have hn := h n (.head _)
    rw [scan]
    cases hkind : n.kind with
    | path =>
      have hname : ¬n.literal = seg := by simpa [hkind, Node.Names] using hn
      simp only [if_neg hname]
      rw [ih hrest, filter_cons_of_neg (by simp [hkind])]
    | param => simp [hkind] at hn
    | wild =>
      dsimp only
      rw [ih hrest, filter_cons_of_pos (by simp [hkind]), getLast?_cons]
      cases (l.filter (·.kind = .wild)).getLast? <;> rfl

end Scan

/-- In a list without repetitions, what stands before `c` is in the part before it. -/
theorem pair_sublist_iff {front back : List α} {p c : α}
    (h : (front ++ c :: back).Nodup) : [p, c].Sublist (front ++ c :: back) ↔ p ∈ front := by
  obtain ⟨-, hback, hdisjoint⟩ := nodup_append.1 h
  have hc : c ∉ back := (nodup_cons.1 hback).1
  constructor
  · intro hsub
    obtain ⟨l₁, l₂, hsplit, h₁, h₂⟩ := sublist_append_iff.1 hsub
    match l₁, hsplit with
    | [], hsplit =>
      -- both in the second part: `c` is in `back`
      obtain rfl : l₂ = [p, c] := hsplit.symm
      have hmem : c ∈ back := by
        cases h₂ with
        | cons _ h₂ | cons_cons _ h₂ => exact h₂.subset (by simp)
      exact absurd hmem hc
    | x :: l₁, hsplit =>
      obtain rfl : p = x := (List.cons.inj hsplit).1
      exact h₁.subset (.head _)
  · intro hp
    exact (singleton_sublist.2 hp).append (singleton_sublist.2 (.head _))

theorem Forest.Distinct.nodup_probeOrder (h : forest.Distinct) (alg : Algorithm) (seg : Text) :
    (probeOrder alg forest seg).Nodup :=
  (probeOrder_perm alg forest seg).nodup_iff.2 (List.Nodup.of_map _ h)

/-- A scan that nothing stops ends with the wildcard. -/
theorem getLast?_filter_eq {l : List α} (hnodup : l.Nodup)
    (hunique : ∀ a ∈ l, ∀ b ∈ l, p a = true → p b = true → a = b) :
    (l.filter p).getLast? = l.find? p := by
  rw [← head?_filter]
  have hfilter : (l.filter p).Nodup := hnodup.filter p
  have hmem : ∀ a ∈ l.filter p, a ∈ l ∧ p a = true := fun a ha => mem_filter.1 ha
  match l.filter p, hfilter, hmem with
  | [], _, _ => rfl
  | [a], _, _ => rfl
  | a :: b :: rest, hfilter, hmem =>
    obtain ⟨ha, hpa⟩ := hmem a (.head _)
    obtain ⟨hb, hpb⟩ := hmem b (.tail _ (.head _))
    have hne : a ≠ b := fun h => (nodup_cons.1 hfilter).1 (h ▸ .head _)
    exact absurd (hunique a ha b hb hpa hpb) hne

theorem find?_stops_of_names {l : List (Node H M)} (hname : ∀ n ∈ l, ¬n.Names seg) :
    (l.find? fun n => n.kind = .param ∨ n.Names seg) = l.find? (·.kind = .param) := by
  refine find?_congr fun n hn => ?_
  rw [decide_eq_decide]
  exact ⟨fun h => h.resolve_right (hname n hn), .inl⟩

/-- Where the literal is in the order of the probe, and what comes before it. -/
theorem find?_stops {front back : List (Node H M)} (hc : c.Names seg)
    (hfront : ∀ n ∈ front, ¬n.Names seg) :
    ((front ++ c :: back).find? fun n => n.kind = .param ∨ n.Names seg) =
      (front.find? (·.kind = .param)).or (some c) := by
  rw [find?_append, find?_stops_of_names hfront, find?_cons_of_pos (by simp [hc])]

/-- The literal that a segment names, in the order of the probe. -/
theorem exists_split_of_names (alg : Algorithm) (hc : c ∈ forest.siblings)
    (hname : c.Names seg) (hdistinct : forest.Distinct) :
    ∃ front back, probeOrder alg forest seg = front ++ c :: back ∧ ∀ n ∈ front, ¬n.Names seg := by
  have hperm := probeOrder_perm alg forest seg
  obtain ⟨front, back, hsplit⟩ := append_of_mem (hperm.mem_iff.2 hc)
  refine ⟨front, back, hsplit, fun n hn hn' => ?_⟩
  have hmem : n ∈ probeOrder alg forest seg := hsplit ▸ mem_append_left _ hn
  have hnodup := hdistinct.nodup_probeOrder alg seg
  obtain rfl := hdistinct.eq_of_names (hperm.mem_iff.1 hmem) hc hn' hname
  rw [hsplit] at hnodup
  exact (nodup_append.1 hnodup).2.2 n hn n (.head _) rfl

theorem pick_of_names (hc : c ∈ forest.siblings) (hname : c.Names seg)
    (hdistinct : forest.Distinct) : pick seg forest.siblings = some c := by
  have hfind : forest.siblings.find? (·.Names seg) = some c := by
    cases hfind : forest.siblings.find? (·.Names seg) with
    | none => exact absurd hname (by simpa using find?_eq_none.1 hfind c hc)
    | some d =>
      have hd : d.Names seg := by simpa using find?_some hfind
      rw [hdistinct.eq_of_names (mem_of_find?_eq_some hfind) hc hd hname]
  rw [pick, hfind]
  rfl

theorem pick_of_forall {forest : Forest H M} (hname : ∀ n ∈ forest.siblings, ¬n.Names seg) :
    pick seg forest.siblings = (forest.siblings.find? (·.kind = .param)).or
      (forest.siblings.find? (·.kind = .wild)) := by
  have hnone : forest.siblings.find? (·.Names seg) = none :=
    find?_eq_none.2 fun n hn => by simpa using hname n hn
  rw [pick, hnone]
  cases forest.siblings.find? (·.kind = .param) <;> rfl

/-- Without a param child in the way, the table takes the child that is meant. -/
theorem step_eq_pick (hdistinct : forest.Distinct) (h : ¬Shadows alg seg forest) :
    step alg seg forest = pick seg forest.siblings := by
  have hperm := probeOrder_perm alg forest seg
  have hunique : ∀ kind ≠ EdgeKind.path, ∀ a ∈ forest.siblings, ∀ b ∈ forest.siblings,
      decide (a.kind = kind) = true → decide (b.kind = kind) = true → a = b := by
    intro kind hkind a ha b hb hka hkb
    have hka := of_decide_eq_true hka
    exact hdistinct.eq_of_kind ha hb (hka ▸ hkind) (hka.trans (of_decide_eq_true hkb).symm)
  by_cases hex : ∃ c ∈ forest.siblings, c.Names seg
  · obtain ⟨c, hc, hname⟩ := hex
    obtain ⟨front, back, hsplit, hfront⟩ := exists_split_of_names alg hc hname hdistinct
    have hnodup := hdistinct.nodup_probeOrder alg seg
    rw [hsplit] at hnodup
    have hparam : front.find? (·.kind = .param) = none := by
      refine find?_eq_none.2 fun p hp hkind => h ⟨p, c, of_decide_eq_true hkind, hname, ?_⟩
      rw [hsplit]
      exact (pair_sublist_iff hnodup).2 hp
    rw [pick_of_names hc hname hdistinct, step, hsplit]
    apply scan_eq_of_find?
    rw [find?_stops hname hfront, hparam]
    rfl
  · have hname : ∀ n ∈ forest.siblings, ¬n.Names seg := fun n hn hn' => hex ⟨n, hn, hn'⟩
    have hstops : ((probeOrder alg forest seg).find? fun n => n.kind = .param ∨ n.Names seg) =
        forest.siblings.find? (·.kind = .param) := by
      rw [find?_stops_of_names fun n hn => hname n (hperm.mem_iff.1 hn)]
      exact find?_eq_of_perm hperm (hunique .param (by decide))
    rw [pick_of_forall hname, step]
    cases hparam : forest.siblings.find? (·.kind = .param) with
    | some p =>
      rw [hparam] at hstops
      exact scan_eq_of_find? hstops
    | none =>
      rw [hparam] at hstops
      rw [scan_eq_of_find?_eq_none hstops, or_none, none_or,
        getLast?_filter_eq (hdistinct.nodup_probeOrder alg seg) fun a ha b hb =>
          hunique .wild (by decide) a (hperm.mem_iff.1 ha) b (hperm.mem_iff.1 hb),
        find?_eq_of_perm hperm (hunique .wild (by decide))]

/-- With a param child in the way, the table takes that. -/
theorem step_of_shadows (hdistinct : forest.Distinct) (h : Shadows alg seg forest) :
    ∃ p c, p ∈ forest.siblings ∧ c ∈ forest.siblings ∧ p.kind = .param ∧ c.Names seg ∧
      step alg seg forest = some p ∧ pick seg forest.siblings = some c := by
  obtain ⟨p, c, hp, hname, hsub⟩ := h
  have hperm := probeOrder_perm alg forest seg
  have hpmem : p ∈ forest.siblings := hperm.mem_iff.1 (hsub.subset (by simp))
  have hcmem : c ∈ forest.siblings := hperm.mem_iff.1 (hsub.subset (by simp))
  obtain ⟨front, back, hsplit, hfront⟩ := exists_split_of_names alg hcmem hname hdistinct
  have hnodup := hdistinct.nodup_probeOrder alg seg
  rw [hsplit] at hnodup hsub
  have hpfront : p ∈ front := (pair_sublist_iff hnodup).1 hsub
  refine ⟨p, c, hpmem, hcmem, hp, hname, ?_, pick_of_names hcmem hname hdistinct⟩
  rw [step, hsplit]
  apply scan_eq_of_find?
  rw [find?_stops hname hfront]
  -- there is only one param child
  cases hfind : front.find? (·.kind = .param) with
  | none => exact absurd hp (by simpa using find?_eq_none.1 hfind p hpfront)
  | some q =>
    have hq : q.kind = .param := by simpa using find?_some hfind
    have hqmem : q ∈ probeOrder alg forest seg :=
      hsplit ▸ mem_append_left _ (mem_of_find?_eq_some hfind)
    rw [hdistinct.eq_of_kind (hperm.mem_iff.1 hqmem) hpmem (by rw [hq]; decide)
      (hq.trans hp.symm)]
    rfl

end Steps

/-! ### The two walks -/

/-- The walk of the table: the middleware chains that are started, and the node it ends at. -/
def walkNodes (alg : Algorithm) : List Text → Node H M → List (List M) × Option (Node H M)
  | [], n => ([], some n)
  | seg :: rest, n =>
    match step alg seg n.children with
    | none => ([], none)
    | some c =>
      let result := walkNodes alg rest c
      if 0 < c.label.middlewares.length then (c.label.middlewares :: result.1, result.2) else result

/-- The handler in the byte of a method. -/
def Node.found (method : Method) (n : Node H M) : Option H :=
  (n.label.handlers.find? fun r => r.1.shift == method.shift).map Prod.snd

/-- The handler that the table runs. -/
def dispatch (alg : Algorithm) (method : Method) (segs : List Text) (n : Node H M) : Option H :=
  (walkNodes alg segs n).2.bind (Node.found method)

/-- The node that is meant by a path. -/
def lookup : List Text → Node H M → Option (Node H M)
  | [], n => some n
  | seg :: rest, n => (pick seg n.children.siblings).bind (lookup rest)

/-- The handler that was registered for a method. -/
def Node.registered (method : Method) (n : Node H M) : Option H :=
  (n.label.handlers.find? fun r => r.1 = method).map Prod.snd

/-- The handler that is meant by a request. -/
def answer (method : Method) (segs : List Text) (n : Node H M) : Option H :=
  (lookup segs n).bind (Node.registered method)

/-- The condition under which the table runs the handler that is meant. Where a param child is
met before the literal, the walk ends at a leaf: there must be no handler for the rest of the
path, and none at that leaf either. At the end of the walk no handler may have been registered
for another method with the same byte. -/
def Clear (alg : Algorithm) (method : Method) : List Text → Node H M → Prop
  | [], n => ∀ r ∈ n.label.handlers, r.1.shift = method.shift → r.1 = method
  | seg :: rest, n => ∀ c, pick seg n.children.siblings = some c →
    (¬Shadows alg seg n.children → Clear alg method rest c) ∧
    (Shadows alg seg n.children → answer method rest c = none ∧
      (rest = [] → ∀ p ∈ n.children.siblings, p.kind = .param →
        ∀ r ∈ p.label.handlers, r.1.shift ≠ method.shift))

section Walks

variable {n : Node H M} {segs : List Text}

/-- What holds of the nodes of a forest that was registered and built: siblings are told apart,
only literals have children, and each byte has one handler. -/
structure Label.Sound (label : Label H M) (children : Forest H M) : Prop where
  distinct : children.Distinct
  leaf : (edge (stripSlash label.path)).1 ≠ .path → children.width = 0
  lanes : (label.handlers.map fun r => r.1.shift).Nodup

/-- No handler is registered on two siblings. -/
def Forest.Apart (forest : Forest H M) : Prop :=
  ∀ a ∈ forest.siblings, ∀ b ∈ forest.siblings, ∀ r ∈ a.label.handlers, ∀ r' ∈ b.label.handlers,
    r.2 = r'.2 → a = b

/-- A property of a node and of all nodes below it. -/
def Node.All (P : Label H M → Forest H M → Prop) (n : Node H M) : Prop :=
  P n.label n.children ∧ n.children.All P

variable {alg : Algorithm} {method : Method} {P : Label H M → Forest H M → Prop}

theorem Forest.All.sibling {forest : Forest H M} (h : forest.All P)
    (hn : n ∈ forest.siblings) : n.All P := by
  induction forest with
  | nil => cases hn
  | route label rest ih =>
    obtain rfl | hn := mem_cons.1 hn
    · exact ⟨h.1, trivial⟩
    · exact ih h.2 hn
  | router label children rest _ ih =>
    obtain rfl | hn := mem_cons.1 hn
    · exact ⟨h.1, h.2.1⟩
    · exact ih h.2.2 hn

theorem Node.All.leaf (h : n.All Label.Sound) (hkind : n.kind ≠ .path) :
    n.children.width = 0 := h.1.leaf hkind

theorem mem_of_pick {seg : Text} {siblings : List (Node H M)} {c : Node H M}
    (h : pick seg siblings = some c) : c ∈ siblings := by
  unfold pick at h
  cases hname : siblings.find? (·.Names seg) with
  | some d =>
    rw [hname] at h
    exact Option.some.inj h ▸ mem_of_find?_eq_some hname
  | none =>
    rw [hname] at h
    cases hparam : siblings.find? (·.kind = .param) with
    | some d =>
      rw [hparam] at h
      exact Option.some.inj h ▸ mem_of_find?_eq_some hparam
    | none =>
      rw [hparam] at h
      exact mem_of_find?_eq_some h

theorem dispatch_nil (n : Node H M) : dispatch alg method [] n = n.found method := rfl

theorem answer_nil (n : Node H M) : answer method [] n = n.registered method := rfl

theorem dispatch_cons (seg : Text) (rest : List Text) (n : Node H M) :
    dispatch alg method (seg :: rest) n =
      (step alg seg n.children).bind (dispatch alg method rest) := by
  unfold dispatch
  rw [walkNodes]
  cases step alg seg n.children with
  | none => rfl
  | some c =>
    dsimp only [bind_some]
    split_ifs <;> rfl

theorem answer_cons (seg : Text) (rest : List Text) (n : Node H M) :
    answer method (seg :: rest) n =
      (pick seg n.children.siblings).bind (answer method rest) := by
  unfold answer
  rw [lookup, bind_assoc]

/-- A node without children has no answer below it. -/
theorem dispatch_of_leaf {seg : Text} {rest : List Text} (h : n.children.width = 0) :
    dispatch alg method (seg :: rest) n = none := by
  rw [dispatch_cons, Forest.eq_nil_of_width h]
  rfl

theorem found_eq_registered (h : ∀ r ∈ n.label.handlers, r.1.shift = method.shift → r.1 = method) :
    n.found method = n.registered method := by
  unfold Node.found Node.registered
  congr 1
  refine find?_congr fun r hr => ?_
  rw [Bool.eq_iff_iff, beq_iff_eq, decide_eq_true_iff]
  exact ⟨h r hr, fun heq => congrArg Method.shift heq⟩

theorem found_eq_none_iff :
    n.found method = none ↔ ∀ r ∈ n.label.handlers, r.1.shift ≠ method.shift := by
  rw [Node.found, map_eq_none_iff, find?_eq_none]
  exact forall₂_congr fun r _ => by rw [beq_iff_eq]

theorem found_mem {h : H} (hfound : n.found method = some h) :
    ∃ r ∈ n.label.handlers, r.1.shift = method.shift ∧ r.2 = h := by
  obtain ⟨r, hr, rfl⟩ := map_eq_some_iff.1 hfound
  exact ⟨r, mem_of_find?_eq_some hr, by simpa using find?_some hr, rfl⟩

theorem registered_mem {h : H} (hreg : n.registered method = some h) :
    ∃ r ∈ n.label.handlers, r.1 = method ∧ r.2 = h := by
  obtain ⟨r, hr, rfl⟩ := map_eq_some_iff.1 hreg
  exact ⟨r, mem_of_find?_eq_some hr, by simpa using find?_some hr, rfl⟩

/-- Under the condition, the table runs the handler that is meant. -/
theorem dispatch_eq_answer (hsound : n.All Label.Sound)
    (hclear : Clear alg method segs n) : dispatch alg method segs n = answer method segs n := by
  induction segs generalizing n with
  | nil => exact found_eq_registered hclear
  | cons seg rest ih =>
    have hdistinct := hsound.1.distinct
    rw [dispatch_cons, answer_cons]
    by_cases hshadow : Shadows alg seg n.children
    · obtain ⟨p, c, hp, -, hkind, -, hstep, hpick⟩ := step_of_shadows hdistinct hshadow
      obtain ⟨hnone, hleaf⟩ := (hclear c hpick).2 hshadow
      rw [hstep, hpick, bind_some, bind_some, hnone]
      cases rest with
      | nil => exact found_eq_none_iff.2 (hleaf rfl p hp hkind)
      | cons seg' rest =>
        exact dispatch_of_leaf ((hsound.2.sibling hp).leaf (by rw [hkind]; decide))
    · rw [step_eq_pick hdistinct hshadow]
      cases hpick : pick seg n.children.siblings with
      | none => rfl
      | some c => exact ih (hsound.2.sibling (mem_of_pick hpick)) ((hclear c hpick).1 hshadow)

/-- The condition is exact where the handlers of siblings are told apart. -/
theorem clear_of_dispatch_eq_answer (hsound : n.All Label.Sound)
    (hapart : n.All fun _ children => children.Apart)
    (heq : dispatch alg method segs n = answer method segs n) : Clear alg method segs n := by
  induction segs generalizing n with
  | nil =>
    intro r hr hshift
    by_contra hne
    -- the byte has one handler, so none is registered for `method`
    cases hfound : n.found method with
    | none => exact found_eq_none_iff.1 hfound r hr hshift
    | some h =>
      have hreg : n.registered method = some h := by rw [← answer_nil, ← heq, dispatch_nil, hfound]
      obtain ⟨r', hr', hmethod, -⟩ := registered_mem hreg
      have hsame : r = r' := inj_on_of_nodup_map hsound.1.lanes hr hr'
        (hshift.trans (congrArg Method.shift hmethod.symm))
      exact hne (hsame ▸ hmethod)
  | cons seg rest ih =>
    have hdistinct := hsound.1.distinct
    rw [dispatch_cons, answer_cons] at heq
    intro c hpick
    refine ⟨fun hshadow => ?_, fun hshadow => ?_⟩
    · rw [step_eq_pick hdistinct hshadow, hpick] at heq
      have hc := mem_of_pick hpick
      exact ih (hsound.2.sibling hc) (hapart.2.sibling hc) heq
    · obtain ⟨p, c', hp, hc', hkind, hname, hstep, hpick'⟩ := step_of_shadows hdistinct hshadow
      obtain rfl : c = c' := Option.some.inj (hpick.symm.trans hpick')
      rw [hstep, hpick, bind_some, bind_some] at heq
      have hne : p ≠ c := by
        rintro rfl
        rw [hname.1] at hkind
        cases hkind
      cases rest with
      | nil =>
        rw [dispatch_nil, answer_nil] at heq
        cases hfound : p.found method with
        | none =>
          refine ⟨by rw [answer_nil, ← heq, hfound], fun _ p' hp' hkind' => ?_⟩
          obtain rfl := hdistinct.eq_of_kind hp' hp (by rw [hkind']; decide)
            (hkind'.trans hkind.symm)
          exact found_eq_none_iff.1 hfound
        | some h =>
          -- the handler would be registered on both
          obtain ⟨r, hr, -, hrh⟩ := found_mem hfound
          obtain ⟨r', hr', -, hrh'⟩ := registered_mem (heq ▸ hfound)
          exact absurd (hapart.1 p hp c hc' r hr r' hr' (hrh.trans hrh'.symm)) hne
      | cons seg' rest =>
        rw [dispatch_of_leaf ((hsound.2.sibling hp).leaf (by rw [hkind]; decide))] at heq
        exact ⟨heq.symm, fun h => nomatch h⟩

end Walks

end Congelado.Routing
