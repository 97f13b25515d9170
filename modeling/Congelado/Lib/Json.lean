import Mathlib

/-!
# Reading JSON text

A reader of JSON text, with the fuel that bounds its nesting (`readValue`, `readElements`,
`readFields`); `read` gives it enough for any text. Numbers are kept as their text, and
`\u` escapes stand for single code points.

`Reads t v` says that the text `t`, written without blanks around it, is read as `v`
whatever follows. It is built along the value: `reads_null`, `reads_str` for any escaping
of characters that `readChar` undoes (`Escapes`), `reads_arr` and `reads_obj`.
-/

namespace Json

open List Option

variable {n : ℕ} {escape : Char → List Char}

/-- A JSON value. -/
inductive Value
  | null
  | bool (b : Bool)
  | number (text : List Char)
  | str (text : List Char)
  | arr (elements : List Value)
  | obj (fields : List (List Char × Value))

/-- The value of a field, the first one of its name. -/
def Value.field? (name : List Char) : Value → Option Value
  | .obj fields => (fields.find? (fun f => f.1 = name)).map Prod.snd
  | _ => none

/-- Skip blanks. -/
def skip (text : List Char) : List Char :=
  text.dropWhile (fun c => c = ' ' || c = '\n' || c = '\r' || c = '\t')

theorem skip_cons {c : Char} (hc : c ≠ ' ' ∧ c ≠ '\n' ∧ c ≠ '\r' ∧ c ≠ '\t') (text : List Char) :
    skip (c :: text) = c :: text := by
  simp [skip, hc]

/-- The value of a hexadecimal digit. -/
def hexValue (c : Char) : Option ℕ :=
  if '0' ≤ c ∧ c ≤ '9' then some (c.toNat - '0'.toNat)
  else if 'a' ≤ c ∧ c ≤ 'f' then some (c.toNat - 'a'.toNat + 10)
  else if 'A' ≤ c ∧ c ≤ 'F' then some (c.toNat - 'A'.toNat + 10)
  else none

/-- The character that an escape of one letter stands for. -/
def unescape : Char → Option Char
  | '"' => some '"'
  | '\\' => some '\\'
  | '/' => some '/'
  | 'b' => some '\x08'
  | 'f' => some '\x0c'
  | 'n' => some '\n'
  | 'r' => some '\r'
  | 't' => some '\t'
  | _ => none

/-- The first character of a string's text, which may be escaped, and the rest. -/
def readChar : List Char → Option (Char × List Char)
  | '\\' :: 'u' :: a :: b :: c :: d :: rest => do
    let a ← hexValue a
    let b ← hexValue b
    let c ← hexValue c
    let d ← hexValue d
    some (Char.ofNat (((a * 16 + b) * 16 + c) * 16 + d), rest)
  | '\\' :: c :: rest => (unescape c).map (·, rest)
  | c :: rest => if c.toNat < 0x20 ∨ c = '\\' ∨ c = '"' then none else some (c, rest)
  | [] => none

/-- The text of a string up to its closing quote, and the rest. -/
def readString : ℕ → List Char → Option (List Char × List Char)
  | 0, _ => none
  | _ + 1, '"' :: rest => some ([], rest)
  | n + 1, text => do
    let (c, rest) ← readChar text
    let (s, rest) ← readString n rest
    some (c :: s, rest)

/-- The characters of numbers. -/
def isNumberChar (c : Char) : Bool :=
    c.isDigit || c = '-' || c = '+' || c = '.' || c = 'e' || c = 'E'

mutual

/-- One value at the front of a text, and the rest. -/
def readValue : ℕ → List Char → Option (Value × List Char)
  | 0, _ => none
  | n + 1, text =>
    match skip text with
    | '"' :: rest => (readString n rest).map fun (s, rest) => (.str s, rest)
    | '[' :: rest =>
      match skip rest with
      | ']' :: rest => some (.arr [], rest)
      | rest => (readElements n rest).map fun (l, rest) => (.arr l, rest)
    | '\x7b' :: rest =>
      match skip rest with
      | '\x7d' :: rest => some (.obj [], rest)
      | rest => (readFields n rest).map fun (l, rest) => (.obj l, rest)
    | 'n' :: 'u' :: 'l' :: 'l' :: rest => some (.null, rest)
    | 't' :: 'r' :: 'u' :: 'e' :: rest => some (.bool true, rest)
    | 'f' :: 'a' :: 'l' :: 's' :: 'e' :: rest => some (.bool false, rest)
    | rest =>
      match rest.span isNumberChar with
      | ([], _) => none
      | (digits, rest) => some (.number digits, rest)

/-- The elements of an array up to its closing bracket, at least one, and the rest. -/
def readElements : ℕ → List Char → Option (List Value × List Char)
  | 0, _ => none
  | n + 1, text => do
    let (v, rest) ← readValue n text
    match skip rest with
    | ',' :: rest =>
      let (l, rest) ← readElements n rest
      some (v :: l, rest)
    | ']' :: rest => some ([v], rest)
    | _ => none

/-- The fields of an object up to its closing brace, at least one, and the rest. -/
def readFields : ℕ → List Char → Option (List (List Char × Value) × List Char)
  | 0, _ => none
  | n + 1, text =>
    match skip text with
    | '"' :: rest => do
      let (name, rest) ← readString n rest
      match skip rest with
      | ':' :: rest =>
        let (v, rest) ← readValue n rest
        match skip rest with
        | ',' :: rest =>
          let (l, rest) ← readFields n rest
          some ((name, v) :: l, rest)
        | '\x7d' :: rest => some ([(name, v)], rest)
        | _ => none
      | _ => none
    | _ => none

end

/-- Read a whole text. -/
def read (text : List Char) : Option Value :=
  (readValue (text.length + 1) text).bind fun (v, rest) => if skip rest = [] then some v else none

/-! ### Strings -/

/-- Every character is read back from its escaped form. -/
def Escapes (escape : Char → List Char) : Prop :=
  ∀ c rest, readChar (escape c ++ rest) = some (c, rest)

theorem readString_succ {text rest : List Char} {c : Char} (h : readChar text = some (c, rest)) :
    readString (n + 1) text = (readString n rest).map fun p => (c :: p.1, p.2) := by
  cases text with
  | nil => cases h
  | cons d text =>
    have hd : d ≠ '"' := by
      rintro rfl
      simp [readChar] at h
    rw [readString, h]
    · simp only [bind_eq_bind, bind_some]
      cases readString n rest <;> rfl
    · rintro text' h'
      exact hd (List.cons.inj h').1

theorem Escapes.length_pos (h : Escapes escape) (c : Char) :
    0 < (escape c).length := by
  cases hc : escape c with
  | nil =>
    have := h c []
    rw [hc] at this
    cases this
  | cons d l => simp

theorem Escapes.length_le (h : Escapes escape) (s : List Char) :
    s.length ≤ (s.flatMap escape).length := by
  induction s with
  | nil => simp
  | cons c s ih =>
    have := h.length_pos c
    rw [flatMap_cons, length_append, length_cons]
    omega

/-- A string is read back from its escaped form. -/
theorem Escapes.readString (h : Escapes escape) {s : List Char}
    (hn : s.length < n) (rest : List Char) :
    readString n (s.flatMap escape ++ '"' :: rest) = some (s, rest) := by
  induction s generalizing n with
  | nil =>
    cases n with
    | zero => cases hn
    | succ n => rfl
  | cons c s ih =>
    cases n with
    | zero => cases hn
    | succ n =>
      rw [flatMap_cons, append_assoc, readString_succ (h c _),
        ih (by simpa using hn)]
      rfl

/-! ### Values -/

/-- The character starts a value. -/
def Starts (c : Char) : Prop := (c ≠ ' ' ∧ c ≠ '\n' ∧ c ≠ '\r' ∧ c ≠ '\t') ∧ c ≠ ']'

instance : DecidablePred Starts := fun c =>
  inferInstanceAs (Decidable ((c ≠ ' ' ∧ c ≠ '\n' ∧ c ≠ '\r' ∧ c ≠ '\t') ∧ c ≠ ']'))

/-- The text is read as the value, whatever follows it. -/
structure Reads (text : List Char) (v : Value) : Prop where
  starts : ∃ c rest, text = c :: rest ∧ Starts c
  value : ∀ n rest, text.length < n → readValue n (text ++ rest) = some (v, rest)

theorem Reads.read {text : List Char} {v : Value} (h : Reads text v) : read text = some v := by
  have hvalue := h.value (text.length + 1) [] (Nat.lt_succ_self _)
  rw [append_nil] at hvalue
  rw [Json.read, hvalue]
  rfl

theorem reads_null : Reads ['n', 'u', 'l', 'l'] .null where
  starts := ⟨'n', ['u', 'l', 'l'], rfl, by decide⟩
  value := by
    intro n rest hn
    cases n with
    | zero => cases hn
    | succ n => simp [readValue, Json.skip]

theorem reads_str (hescape : Escapes escape) (s : List Char) :
    Reads ('"' :: (s.flatMap escape ++ ['"'])) (.str s) where
  starts := ⟨'"', _, rfl, by decide⟩
  value := by
    intro n rest hn
    cases n with
    | zero => cases hn
    | succ n =>
      have hlen := hescape.length_le s
      simp only [length_cons, length_append, length_nil] at hn
      rw [readValue, cons_append, append_assoc, skip_cons (by decide),
        singleton_append]
      show (readString n _).map _ = _
      rw [hescape.readString (by omega)]
      rfl

/-! ### Members -/

/-- Texts with commas between them. -/
def commas : List (List Char) → List Char
  | [] => []
  | [text] => text
  | text :: texts => text ++ ',' :: commas texts

/-- Items with commas between them and a character at the end, for a reader that goes on after a
comma. -/
theorem read_commas {α β : Type} {write : α → List Char} {value : α → β} {close : Char}
    {read : ℕ → List Char → Option (List β × List Char)} {items : List α} (hne : items ≠ [])
    (hlast : ∀ a ∈ items, ∀ n rest, (write a).length < n →
      read (n + 1) (write a ++ close :: rest) = some ([value a], rest))
    (hmore : ∀ a ∈ items, ∀ n rest, (write a).length < n →
      read (n + 1) (write a ++ ',' :: rest) = (read n rest).map fun p => (value a :: p.1, p.2))
    (hn : (commas (items.map write)).length + 1 < n) (rest : List Char) :
    read n (commas (items.map write) ++ close :: rest) = some (items.map value, rest) := by
  induction items generalizing n with
  | nil => exact absurd rfl hne
  | cons a items ih =>
    cases n with
    | zero => cases hn
    | succ n =>
      cases items with
      | nil =>
        simp only [map_cons, map_nil, commas] at hn ⊢
        exact hlast a mem_cons_self n rest (by omega)
      | cons b items =>
        have hlen : (commas ((a :: b :: items).map write)).length =
            (write a).length + (commas ((b :: items).map write)).length + 1 := by
          simp [commas]
          omega
        have hsplit : commas ((a :: b :: items).map write) ++ close :: rest =
            write a ++ ',' :: (commas ((b :: items).map write) ++ close :: rest) := by
          simp [commas]
        rw [hlen] at hn
        rw [hsplit, hmore a mem_cons_self n _ (by omega), ih (by simp)
          (fun c hc => hlast c (.tail a hc)) (fun c hc => hmore c (.tail a hc)) (by omega)]
        rfl

theorem readElements_commas {members : List (List Char × Value)} (hne : members ≠ [])
    (h : ∀ p ∈ members, Reads p.1 p.2)
    (hn : (commas (members.map Prod.fst)).length + 1 < n) (rest : List Char) :
    readElements n (commas (members.map Prod.fst) ++ ']' :: rest) =
      some (members.map Prod.snd, rest) := by
  refine read_commas hne (fun p hp n rest hn => ?_) (fun p hp n rest hn => ?_) hn rest
  · rw [readElements, (h p hp).value n _ hn]
    simp [skip_cons]
  · rw [readElements, (h p hp).value n _ hn]
    simp only [bind_eq_bind, bind_some]
    rw [skip_cons (by decide)]
    show (readElements n rest).bind _ = _
    cases readElements n rest <;> rfl

theorem reads_arr (members : List (List Char × Value)) (h : ∀ p ∈ members, Reads p.1 p.2) :
    Reads ('[' :: (commas (members.map Prod.fst) ++ [']'])) (.arr (members.map Prod.snd)) where
  starts := ⟨'[', _, rfl, by decide⟩
  value := by
    intro n rest hn
    cases n with
    | zero => cases hn
    | succ n =>
      simp only [length_cons, length_append, length_nil] at hn
      rw [readValue, cons_append, append_assoc, skip_cons (by decide),
        singleton_append]
      cases members with
      | nil => simp [commas, skip_cons]
      | cons p members =>
        obtain ⟨c, text, htext, hc⟩ := (h p (.head _)).starts
        have hhead : ∃ more, commas ((p :: members).map Prod.fst) ++ ']' :: rest = c :: more := by
          cases members <;> simp [commas, htext]
        obtain ⟨more, hmore⟩ := hhead
        have helements := readElements_commas (by simp) h (show _ < n by omega) rest
        rw [hmore] at helements ⊢
        simp only [skip_cons hc.1]
        split
        · rename_i heq
          exact absurd (List.cons.inj heq).1 hc.2
        · rw [helements]
          rfl

/-- A field: its name, its value, and the text of the value. -/
structure Member where
  name : List Char
  value : Value
  text : List Char

/-- The text of a field. -/
def Member.write (escape : Char → List Char) (f : Member) : List Char :=
  '"' :: (f.name.flatMap escape ++ '"' :: ':' :: f.text)

section

variable (hescape : Escapes escape)

include hescape

theorem readField {f : Member}
    (hf : Reads f.text f.value) (hn : (f.write escape).length < n) (rest : List Char) :
    readFields (n + 1) (f.write escape ++ rest) =
      match skip rest with
      | ',' :: rest => (readFields n rest).map fun p => ((f.name, f.value) :: p.1, p.2)
      | '\x7d' :: rest => some ([(f.name, f.value)], rest)
      | _ => none := by
  have hlen := hescape.length_le f.name
  simp only [Member.write, length_cons, length_append] at hn
  have hsplit : f.write escape ++ rest =
      '"' :: (f.name.flatMap escape ++ '"' :: (':' :: (f.text ++ rest))) := by
    simp [Member.write]
  rw [hsplit, readFields, skip_cons (by decide)]
  simp only [hescape.readString (show f.name.length < n by omega), bind_eq_bind,
    bind_some, skip_cons (show ':' ≠ ' ' ∧ ':' ≠ '\n' ∧ ':' ≠ '\r' ∧ ':' ≠ '\t' by decide),
    hf.value n rest (by omega)]
  split
  · cases readFields n _ <;> rfl
  · rfl
  · rfl

theorem readFields_commas
    {fields : List Member} (hne : fields ≠ []) (h : ∀ f ∈ fields, Reads f.text f.value)
    (hn : (commas (fields.map (Member.write escape))).length + 1 < n) (rest : List Char) :
    readFields n (commas (fields.map (Member.write escape)) ++ '\x7d' :: rest) =
      some (fields.map fun f => (f.name, f.value), rest) := by
  refine read_commas hne (fun f hf n rest hn => ?_) (fun f hf n rest hn => ?_) hn rest
  · rw [readField hescape (h f hf) hn, skip_cons (by decide)]
    rfl
  · rw [readField hescape (h f hf) hn, skip_cons (by decide)]
    rfl

theorem reads_obj (fields : List Member)
    (h : ∀ f ∈ fields, Reads f.text f.value) :
    Reads ('\x7b' :: (commas (fields.map (Member.write escape)) ++ ['\x7d']))
      (.obj (fields.map fun f => (f.name, f.value))) where
  starts := ⟨'\x7b', _, rfl, by decide⟩
  value := by
    intro n rest hn
    cases n with
    | zero => cases hn
    | succ n =>
      simp only [length_cons, length_append, length_nil] at hn
      rw [readValue, cons_append, append_assoc, skip_cons (by decide),
        singleton_append]
      cases fields with
      | nil => simp [commas, skip_cons]
      | cons f fields =>
        have hhead : ∃ more, commas ((f :: fields).map (Member.write escape)) ++ '\x7d' :: rest =
            '"' :: more := by
          cases fields <;> simp [commas, Member.write]
        obtain ⟨more, hmore⟩ := hhead
        have hfields := readFields_commas hescape (by simp) h (show _ < n by omega) rest
        rw [hmore] at hfields ⊢
        simp only [skip_cons (show '"' ≠ ' ' ∧ '"' ≠ '\n' ∧ '"' ≠ '\r' ∧ '"' ≠ '\t' by decide)]
        show (readFields n ('"' :: more)).map _ = _
        rw [hfields]
        rfl

end

end Json
