import Mathlib

/-!
# The lexical structure of SQL

A text is read character by character in one of four modes: between tokens, inside a
word, inside a string literal, and after a quote inside a literal, which either ends the
literal or, doubled, stands for one quote (`Mode`). `scan` yields the tokens, or nothing
for a literal that is not closed.

Three rules are what proofs about generated text need.

* `scan_plain`: text without quotes is read without leaving the first two modes, so it
  yields no literal, and a separator at its end leaves the reader between tokens.
* `scan_literal`: a value whose quotes are doubled is read as one literal of that value.
* `quote_notMem_of_scan`: a value that is put between quotes as it is comes back as the
  first literal only if it has no quote.
-/

namespace Lexical

open List

/-- The tokens of SQL, as far as their boundaries are concerned. -/
inductive Token
  | word (text : List Char)
  | symbol (c : Char)
  | literal (value : List Char)
  deriving DecidableEq, Repr

namespace Token

/-- The value of a string literal. -/
def value? : Token → Option (List Char)
  | .literal value => some value
  | _ => none

/-- A token without the value of a literal. -/
def blank : Token → Token
  | .literal _ => .literal []
  | t => t

end Token

/-- What the reader is inside of. -/
inductive Mode
  | ground
  | word (acc : List Char)
  | literal (acc : List Char)
  | quote (acc : List Char)
  deriving DecidableEq, Repr

variable {tokens : List Token} {mode : Mode} {c : Char} {text rest value : List Char}

/-- The characters of words. -/
def isWordChar (c : Char) : Bool := c.isAlphanum || c = '_'

/-- Read the first character of a token or a blank. -/
def start (c : Char) : List Token × Mode :=
  if c = '\'' then ([], .literal [])
  else if isWordChar c then ([], .word [c])
  else if c.isWhitespace then ([], .ground)
  else ([.symbol c], .ground)

/-- Read one character: the tokens it completes and the next mode. -/
def Mode.read : Mode → Char → List Token × Mode
  | .ground, c => start c
  | .word acc, c =>
    if isWordChar c then ([], .word (acc ++ [c]))
    else (.word acc :: (start c).1, (start c).2)
  | .literal acc, c => if c = '\'' then ([], .quote acc) else ([], .literal (acc ++ [c]))
  | .quote acc, c =>
    if c = '\'' then ([], .literal (acc ++ ['\'']))
    else (.literal acc :: (start c).1, (start c).2)

/-- The tokens that the end of the text completes. -/
def Mode.finish : Mode → Option (List Token)
  | .ground => some []
  | .word acc => some [.word acc]
  | .literal _ => none
  | .quote acc => some [.literal acc]

/-- Read a text to its end. -/
def scan : Mode → List Char → Option (List Token)
  | mode, [] => mode.finish
  | mode, c :: cs => (scan (mode.read c).2 cs).map ((mode.read c).1 ++ ·)

/-- The tokens of a text. -/
def lex (text : String) : Option (List Token) := scan .ground text.toList

/-! ### Text without quotes -/

/-- The tokens are none of the literals and do not end a statement. -/
def Bare (tokens : List Token) : Prop := ∀ t ∈ tokens, t.value? = none ∧ t ≠ .symbol ';'

/-- The text has neither quotes nor semicolons. -/
def Plain (text : List Char) : Prop := ∀ c ∈ text, c ≠ '\'' ∧ c ≠ ';'

theorem Plain.append {a b : List Char} (ha : Plain a) (hb : Plain b) : Plain (a ++ b) := by
  intro c hc
  rcases mem_append.1 hc with hc | hc
  · exact ha c hc
  · exact hb c hc

/-- Two texts are plain together when both are. -/
theorem plain_append_iff {a b : List Char} : Plain (a ++ b) ↔ Plain a ∧ Plain b :=
  ⟨fun h => ⟨fun c hc => h c (mem_append_left b hc), fun c hc => h c (mem_append_right a hc)⟩,
    fun h => h.1.append h.2⟩

theorem bare_nil : Bare [] := fun _ h => absurd h not_mem_nil

theorem Bare.append {a b : List Token} (ha : Bare a) (hb : Bare b) : Bare (a ++ b) := by
  intro t ht
  rcases mem_append.1 ht with ht | ht
  · exact ha t ht
  · exact hb t ht

theorem Bare.values (h : Bare tokens) :
    tokens.filterMap Token.value? = [] :=
  filterMap_eq_nil_iff.2 fun t ht => (h t ht).1

theorem Bare.blank (h : Bare tokens) : tokens.map Token.blank = tokens := by
  refine (map_congr_left fun t ht => ?_).trans (map_id tokens)
  cases t with
  | literal value => cases (h _ ht).1
  | _ => rfl

/-- The reader is not inside a literal. -/
def Mode.Outside : Mode → Prop
  | .ground | .word _ => True
  | _ => False

/-- A character that ends a word and starts nothing. -/
def isSeparator (c : Char) : Bool := !isWordChar c && c ≠ '\''

theorem start_plain (hc : c ≠ '\'' ∧ c ≠ ';') :
    Bare (start c).1 ∧ (start c).2.Outside ∧ (isSeparator c = true → (start c).2 = .ground) := by
  unfold start
  rw [if_neg hc.1]
  by_cases hword : isWordChar c = true
  · simp [hword, bare_nil, Mode.Outside, isSeparator]
  · rw [if_neg hword]
    split
    · exact ⟨bare_nil, trivial, fun _ => rfl⟩
    · exact ⟨fun t ht => by simp [mem_singleton.1 ht, Token.value?, hc.2], trivial,
        fun _ => rfl⟩

theorem Mode.Outside.read (hmode : mode.Outside) (hc : c ≠ '\'' ∧ c ≠ ';') :
    Bare (mode.read c).1 ∧ (mode.read c).2.Outside ∧
      (isSeparator c = true → (mode.read c).2 = .ground) := by
  obtain ⟨hbare, hout, hsep⟩ := start_plain hc
  cases mode with
  | ground => exact ⟨hbare, hout, hsep⟩
  | word acc =>
    rw [Mode.read]
    split
    · rename_i hword
      exact ⟨bare_nil, trivial, fun h => by simp [isSeparator, hword] at h⟩
    · refine ⟨fun t ht => ?_, hout, hsep⟩
      rcases mem_cons.1 ht with rfl | ht
      · simp [Token.value?]
      · exact hbare t ht
  | literal | quote => exact hmode.elim

/-- Plain text is read to tokens that are neither literals nor semicolons. -/
theorem scan_plain (htext : Plain text) (hmode : mode.Outside) :
    ∃ tokens mode', Bare tokens ∧ mode'.Outside ∧
      ∀ rest, scan mode (text ++ rest) = (scan mode' rest).map (tokens ++ ·) := by
  induction text generalizing mode with
  | nil => exact ⟨[], mode, bare_nil, hmode, fun rest => by simp⟩
  | cons c text ih =>
    obtain ⟨hbare, hout, -⟩ := hmode.read (htext c (.head _))
    obtain ⟨tokens, mode', htokens, hmode', hscan⟩ :=
      ih (fun d hd => htext d (mem_cons_of_mem c hd)) hout
    refine ⟨(mode.read c).1 ++ tokens, mode', hbare.append htokens, hmode', fun rest => ?_⟩
    rw [cons_append, scan, hscan, Option.map_map]
    exact congrArg (fun f => (scan mode' rest).map f) (funext fun l => by simp)

/-- Plain text that ends in a separator is read up to a token boundary. -/
theorem scan_separated (htext : Plain (text ++ [c]))
    (hc : isSeparator c = true) (hmode : mode.Outside) :
    ∃ tokens, Bare tokens ∧
      ∀ rest, scan mode (text ++ [c] ++ rest) = (scan .ground rest).map (tokens ++ ·) := by
  obtain ⟨tokens, mode', htokens, hmode', hscan⟩ :=
    scan_plain (fun d hd => htext d (mem_append_left _ hd)) hmode
  obtain ⟨hbare, -, hsep⟩ := hmode'.read (htext c (by simp))
  refine ⟨tokens ++ (mode'.read c).1, htokens.append hbare, fun rest => ?_⟩
  rw [append_assoc, hscan, singleton_append, scan, hsep hc, Option.map_map]
  exact congrArg (fun f => (scan .ground rest).map f) (funext fun l => by simp)

/-- Plain text has tokens. -/
theorem exists_scan_plain (htext : Plain text) :
    ∃ tokens, Bare tokens ∧ scan .ground text = some tokens := by
  obtain ⟨tokens, mode, hbare, hmode, hscan⟩ :=
    scan_plain htext (show Mode.ground.Outside from trivial)
  have hend := hscan []
  cases mode with
  | ground => exact ⟨tokens, hbare, by simpa [scan, Mode.finish] using hend⟩
  | word acc =>
    refine ⟨tokens ++ [.word acc], hbare.append fun t ht => ?_,
      by simpa [scan, Mode.finish] using hend⟩
    simp [mem_singleton.1 ht, Token.value?]
  | literal | quote => exact hmode.elim

/-! ### Literals -/

/-- Double every quote. -/
def escape (value : List Char) : List Char :=
  value.flatMap fun c => if c = '\'' then ['\'', '\''] else [c]

@[simp] theorem escape_nil : escape [] = [] := rfl

theorem escape_cons_quote (value : List Char) :
    escape ('\'' :: value) = '\'' :: '\'' :: escape value := rfl

theorem escape_cons_of_ne (hc : c ≠ '\'') (value : List Char) :
    escape (c :: value) = c :: escape value := by
  simp [escape, hc]

theorem escape_of_notMem (h : '\'' ∉ value) : escape value = value := by
  induction value with
  | nil => rfl
  | cons c value ih =>
    rw [mem_cons, not_or] at h
    rw [escape_cons_of_ne (Ne.symm h.1), ih h.2]

section

variable (hrest : rest.head? ≠ some '\'')

include hrest

/-- The quote before `rest` ends a literal. -/
theorem scan_quote (acc : List Char) :
    scan (.quote acc) rest = (scan .ground rest).map (.literal acc :: ·) := by
  cases rest with
  | nil => rfl
  | cons c rest =>
    have hc : c ≠ '\'' := fun h => hrest (by rw [h]; rfl)
    simp only [scan, Mode.read, if_neg hc, Option.map_map]
    rfl

theorem scan_escape (value acc : List Char) :
    scan (.literal acc) (escape value ++ '\'' :: rest) =
      (scan .ground rest).map (.literal (acc ++ value) :: ·) := by
  induction value generalizing acc with
  | nil =>
    rw [escape_nil, nil_append, append_nil, scan, ← scan_quote hrest]
    simp [Mode.read]
  | cons c value ih =>
    by_cases hc : c = '\''
    · subst hc
      rw [escape_cons_quote, cons_append, cons_append, scan]
      simpa [scan, Mode.read] using ih (acc ++ ['\''])
    · rw [escape_cons_of_ne hc, cons_append, scan]
      simpa [Mode.read, hc] using ih (acc ++ [c])

/-- A value with its quotes doubled is one literal, which denotes the value. -/
theorem scan_literal (value : List Char) :
    scan .ground ('\'' :: escape value ++ '\'' :: rest) =
      (scan .ground rest).map (.literal value :: ·) := by
  have h := scan_escape hrest value []
  simpa [scan, Mode.read, start] using h

end

/-- What is read inside a literal is the doubled form of its value, up to its end. -/
theorem exists_of_scan_literal {text acc : List Char} (h : scan (.literal acc) text = some tokens) :
    ∃ value rest tokens', text = escape value ++ '\'' :: rest ∧ rest.head? ≠ some '\'' ∧
      tokens = .literal (acc ++ value) :: tokens' := by
  -- two characters at a time where the first one is a quote
  induction hn : text.length using Nat.strong_induction_on generalizing text acc tokens with
  | _ n ih =>
    cases text with
    | nil => cases h
    | cons c text =>
      rw [length_cons] at hn
      by_cases hc : c = '\''
      · subst hc
        cases text with
        | nil =>
          refine ⟨[], [], [], rfl, by simp, ?_⟩
          simpa [scan, Mode.read, Mode.finish, eq_comm] using h
        | cons d text =>
          by_cases hd : d = '\''
          · subst hd
            rw [length_cons] at hn
            simp only [scan, Mode.read, if_true, nil_append, Option.map_id'] at h
            obtain ⟨value, rest, tokens', rfl, hrest, rfl⟩ := ih text.length (by omega) h rfl
            exact ⟨'\'' :: value, rest, tokens', by rw [escape_cons_quote]; rfl, hrest, by simp⟩
          · refine ⟨[], d :: text, ?_⟩
            rw [scan, Mode.read, if_pos rfl, scan_quote (by simpa using hd), Option.map_map] at h
            obtain ⟨tokens', -, htokens⟩ := Option.map_eq_some_iff.1 h
            exact ⟨tokens', rfl, by simpa using hd, by simpa using htokens.symm⟩
      · simp only [scan, Mode.read, if_neg hc, nil_append, Option.map_id'] at h
        obtain ⟨value, rest, tokens', rfl, hrest, rfl⟩ := ih text.length (by omega) h rfl
        exact ⟨c :: value, rest, tokens', by rw [escape_cons_of_ne hc]; rfl, hrest, by simp⟩

/-- Surplus quotes in front of a doubled text are never made up for. -/
theorem replicate_escape_ne {rest rest' : List Char} (hrest : rest.head? ≠ some '\'') (n : ℕ) :
    List.replicate (n + 1) '\'' ++ (escape value ++ '\'' :: rest') ≠ value ++ '\'' :: rest := by
  induction value generalizing n with
  | nil =>
    intro h
    rw [replicate_succ, cons_append, escape_nil, nil_append, nil_append,
      List.cons.injEq] at h
    refine hrest ?_
    rw [← h.2]
    cases n <;> rfl
  | cons c value ih =>
    intro h
    rw [replicate_succ, cons_append, cons_append, List.cons.injEq] at h
    obtain ⟨rfl, h⟩ := h
    refine ih (n + 1) (Eq.trans ?_ h)
    rw [escape_cons_quote, replicate_succ', replicate_succ']
    simp

theorem quote_notMem_of_escape_eq {rest rest' : List Char} (hrest : rest.head? ≠ some '\'')
    (h : escape value ++ '\'' :: rest' = value ++ '\'' :: rest) : '\'' ∉ value := by
  induction value with
  | nil => exact not_mem_nil
  | cons c value ih =>
    by_cases hc : c = '\''
    · subst hc
      rw [escape_cons_quote, cons_append, cons_append, cons_append,
        List.cons.injEq] at h
      exact absurd h.2 (replicate_escape_ne hrest 0)
    · rw [escape_cons_of_ne hc, cons_append, cons_append, List.cons.injEq] at h
      rw [mem_cons, not_or]
      exact ⟨Ne.symm hc, ih h.2⟩

/-- A value that was put between quotes as it is comes back only if it has no quote. -/
theorem quote_notMem_of_scan {rest : List Char} (hrest : rest.head? ≠ some '\'')
    (h : scan (.literal []) (value ++ '\'' :: rest) = some (.literal value :: tokens)) :
    '\'' ∉ value := by
  obtain ⟨value', rest', tokens', htext, -, htokens⟩ := exists_of_scan_literal h
  obtain rfl : value = value' := by simpa using (List.cons.inj htokens).1
  exact quote_notMem_of_escape_eq hrest htext.symm

end Lexical
