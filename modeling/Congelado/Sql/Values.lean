import Congelado.Sql.Text

/-!
# Values in the generated text

A generated statement is cut by the PostgreSQL lexer before it is parsed, so a value
that is spliced into it stays a value only if it is lexed as one string literal. The
key lists of `select_many` and `delete_many` go through `quoted_list`, which doubles
quotes; a single key and the JSON payloads are put between quotes as they are.

`faithful_iff` says exactly when a statement carries its values: always for the key
lists, and for the other operations when the value has no quote.
-/

namespace Congelado.Sql

open Lexical SqlRequest

/-! ### Requests and their values -/

/-- The operations that carry values. -/
def valueOps : List String :=
  ["select", "select_many", "insert", "insert_many", "update", "upsert", "delete", "delete_many"]

/-- A name made of letters, digits and underscores. -/
def isIdentifier (name : String) : Prop := name ≠ "" ∧ ∀ c ∈ name.toList, isWordChar c = true

namespace SqlRequest

/-- The names that the operation puts into its statement are plain identifiers. -/
structure Named (r : SqlRequest) : Prop where
  tableName : isIdentifier r.tableName
  pkColumn : r.op ∉ ["insert", "insert_many"] → isIdentifier r.pkColumn
  setColumns : r.op = "update" → ∀ column ∈ r.setColumns, isIdentifier column
  updateColumns : r.op = "upsert" → ∀ column ∈ r.updateColumns, isIdentifier column

variable (r : SqlRequest)

/-- The values that one of the operations in `valueOps` puts into its statement. -/
def values : List String :=
  if r.op = "select" ∨ r.op = "delete" then [r.key]
  else if r.op = "select_many" ∨ r.op = "delete_many" then r.keys
  else if r.op = "insert_many" then [r.jsonArrayPayload]
  else [r.jsonPayload]

/-- The same request with empty values: it keeps the operation, the names and the number
of keys, and nothing else. -/
def blank : SqlRequest :=
  { r with
    key := ""
    keys := r.keys.map fun _ => ""
    jsonPayload := ""
    jsonArrayPayload := "" }

/-- The values with their quotes doubled are the ones that `quoted_list` writes. -/
def escapes : Bool := r.op = "select_many" || r.op = "delete_many"

/-- The generated text is one statement, its tokens are those of the blank request up to
the values of literals, and its literals are the values of the request, in order. -/
def Faithful : Prop :=
  ∃ sql tokens, encode r = .ok sql ∧ lex sql = some tokens ∧ Token.symbol ';' ∉ tokens ∧
    tokens.filterMap Token.value? = r.values.map String.toList ∧
    ∃ sql₀ tokens₀, encode r.blank = .ok sql₀ ∧ lex sql₀ = some tokens₀ ∧
      tokens.map Token.blank = tokens₀

end SqlRequest

/-! ### Plain text -/

theorem plain_of_isWordChar {text : List Char} (h : ∀ c ∈ text, isWordChar c = true) :
    Plain text := by
  intro c hc
  have hword := h c hc
  constructor
  · rintro rfl
    revert hword
    decide
  · rintro rfl
    revert hword
    decide

theorem isIdentifier.plain {name : String} (h : isIdentifier name) : Plain name.toList :=
  plain_of_isWordChar h.2

theorem plain_join {sep : String} (hsep : Plain sep.toList) {texts : List String}
    (htexts : ∀ text ∈ texts, Plain text.toList) : Plain (join sep texts).toList := by
  induction texts with
  | nil => exact fun _ h => absurd h (by simp [join])
  | cons text texts ih =>
    have htext := htexts text (.head _)
    have hrest := ih fun t ht => htexts t (List.mem_cons_of_mem text ht)
    cases texts with
    | nil => exact htext
    | cons text' texts =>
      rw [join, String.toList_append, String.toList_append]
      · exact (htext.append hsep).append hrest
      · simp

/-- A list of assignments of columns. -/
theorem plain_assignments {columns : List String} (hcolumns : ∀ c ∈ columns, isIdentifier c)
    {source : String} (hsource : Plain source.toList) :
    Plain (join ", " (columns.map fun column => column ++ source ++ column)).toList := by
  refine plain_join (by simp [Plain]) fun text htext => ?_
  obtain ⟨column, hcolumn, rfl⟩ := List.mem_map.1 htext
  have hplain := (hcolumns column hcolumn).plain
  simp only [String.toList_append, plain_append_iff]
  exact ⟨⟨hplain, hsource⟩, hplain⟩

/-! ### One value between quotes -/

/-- The text around the values of a statement: plain, and the values start after a
separator. -/
structure Frame where
  pre : List Char
  sep : Char
  post : List Char
  plain_pre : Plain (pre ++ [sep])
  isSeparator_sep : isSeparator sep = true
  plain_post : Plain post

namespace Frame

variable (f : Frame)

/-- The statement with `middle` for its values. -/
def text (middle : List Char) : List Char := f.pre ++ [f.sep] ++ (middle ++ f.post)

variable {f}

theorem head?_post : f.post.head? ≠ some '\'' :=
  fun h => (f.plain_post _ (List.mem_of_mem_head? (by simpa using h))).1 rfl

/-- The tokens around the values do not depend on them. -/
theorem scan_text : ∃ before after, Bare before ∧ Bare after ∧ scan .ground f.post = some after ∧
    ∀ middle, scan .ground (f.text middle) =
      (scan .ground (middle ++ f.post)).map (before ++ ·) := by
  obtain ⟨before, hbefore, hscan⟩ :=
    scan_separated f.plain_pre f.isSeparator_sep (show Mode.ground.Outside from trivial)
  obtain ⟨after, hafter, hpost⟩ := exists_scan_plain f.plain_post
  exact ⟨before, after, hbefore, hafter, hpost, fun middle => hscan _⟩

end Frame

/-- A value between quotes, as it is. -/
def quoted (value : List Char) : List Char := '\'' :: (value ++ ['\''])

/-- A value that comes back as the only literal has no quote. -/
theorem notMem_of_scan_text {f : Frame} {value : List Char} {tokens : List Token}
    (hscan : scan .ground (f.text (quoted value)) = some tokens)
    (hvalues : tokens.filterMap Token.value? = [value]) : '\'' ∉ value := by
  obtain ⟨before, -, hbefore, -, -, htext⟩ := f.scan_text
  rw [htext, Option.map_eq_some_iff] at hscan
  obtain ⟨rest, hrest, rfl⟩ := hscan
  have hlit : scan (.literal []) (value ++ '\'' :: f.post) = some rest := by
    simpa [scan, Mode.read, start, quoted] using hrest
  obtain ⟨first, -, rest', -, -, rfl⟩ := exists_of_scan_literal hlit
  -- the literal that starts at the value's opening quote is the first one of the text
  have hfirst : first = value := by
    rw [List.filterMap_append, hbefore.values, List.nil_append] at hvalues
    simpa [Token.value?] using (List.cons.inj hvalues).1
  rw [List.nil_append, hfirst] at hlit
  exact quote_notMem_of_scan Frame.head?_post hlit

/-! ### Key lists -/

/-- The tokens of a quoted list. -/
def listTokens : List String → List Token
  | [] => []
  | [key] => [.literal key.toList]
  | key :: keys => .literal key.toList :: .symbol ',' :: listTokens keys

theorem escaped_toList (value : String) : (escaped value).toList = escape value.toList := by
  suffices ∀ text out : List Char,
      text.foldl (fun out c => (if c = '\'' then out ++ ['\''] else out) ++ [c]) out =
        out ++ escape text by
    rw [escaped, String.toList_ofList, this, List.nil_append]
  intro text
  induction text with
  | nil => simp
  | cons c text ih =>
    intro out
    rw [List.foldl_cons, ih]
    by_cases hc : c = '\''
    · simp [hc, escape_cons_quote]
    · simp [hc, escape_cons_of_ne hc]

/-- A quoted list is read as its keys with commas between them. -/
theorem scan_quotedList (keys : List String) {rest : List Char} (hrest : rest.head? ≠ some '\'') :
    scan .ground ((quotedList keys).toList ++ rest) =
      (scan .ground rest).map (listTokens keys ++ ·) := by
  have hquoted : ∀ (key : String) (rest : List Char), rest.head? ≠ some '\'' →
      scan .ground (("'" ++ escaped key ++ "'").toList ++ rest) =
        (scan .ground rest).map (.literal key.toList :: ·) := by
    intro key rest hrest
    rw [← scan_literal hrest, String.toList_append, String.toList_append, escaped_toList]
    simp
  induction keys with
  | nil => simp [quotedList, join, listTokens]
  | cons key keys ih =>
    cases keys with
    | nil => exact hquoted key rest hrest
    | cons key' keys =>
      have hcomma : scan .ground (',' :: ((quotedList (key' :: keys)).toList ++ rest)) =
          (scan .ground rest).map (fun l => .symbol ',' :: (listTokens (key' :: keys) ++ l)) := by
        rw [scan, show (Mode.ground.read ',').2 = .ground from rfl, ih, Option.map_map]
        rfl
      have htext : (quotedList (key :: key' :: keys)).toList ++ rest =
          ("'" ++ escaped key ++ "'").toList ++
            (',' :: ((quotedList (key' :: keys)).toList ++ rest)) := by
        simp [quotedList, join]
      rw [htext, hquoted key _ (by simp), hcomma, Option.map_map]
      rfl

theorem listTokens_values (keys : List String) :
    (listTokens keys).filterMap Token.value? = keys.map String.toList := by
  induction keys with
  | nil => rfl
  | cons key keys ih =>
    cases keys with
    | nil => rfl
    | cons key' keys => exact congrArg (key.toList :: ·) ih

theorem listTokens_blank (keys : List String) :
    (listTokens keys).map Token.blank = listTokens (keys.map fun _ => "") := by
  induction keys with
  | nil => rfl
  | cons key keys ih =>
    cases keys with
    | nil => rfl
    | cons key' keys => exact congrArg (Token.literal [] :: Token.symbol ',' :: ·) ih

theorem semicolon_notMem_listTokens (keys : List String) : Token.symbol ';' ∉ listTokens keys := by
  induction keys with
  | nil => exact List.not_mem_nil
  | cons key keys ih =>
    cases keys with
    | nil => simp [listTokens]
    | cons key' keys =>
      rw [listTokens, List.mem_cons, List.mem_cons]
      · rintro (h | h | h)
        · cases h
        · exact absurd (Token.symbol.inj h) (by decide)
        · exact ih h
      · simp

section

variable {r : SqlRequest} (f : Frame) (build : SqlRequest → String)
    (hsql : ∀ r' : SqlRequest, r'.op = r.op → encode r' = .ok (build r'))

include hsql

/-- A request whose values go through `quoted_list`. -/
theorem faithful_list {keys : List String} (hvalues : r.values = keys)
    (htext : (build r).toList = f.text (quotedList keys).toList)
    (htext₀ : (build r.blank).toList = f.text (quotedList (keys.map fun _ => "")).toList) :
    r.Faithful := by
  obtain ⟨before, after, hbefore, hafter, hpost, hscan⟩ := f.scan_text
  have hlist : ∀ keys, scan .ground (f.text (quotedList keys).toList) =
      some (before ++ (listTokens keys ++ after)) := by
    intro keys
    rw [hscan, scan_quotedList keys Frame.head?_post, hpost]
    rfl
  refine ⟨_, before ++ (listTokens keys ++ after), hsql r rfl, ?_, ?_, ?_, _,
    before ++ (listTokens (keys.map fun _ => "") ++ after), hsql r.blank rfl, ?_, ?_⟩
  · rw [lex, htext, hlist]
  · intro hmem
    rcases List.mem_append.1 hmem with hmem | hmem
    · exact (hbefore _ hmem).2 rfl
    · rcases List.mem_append.1 hmem with hmem | hmem
      · exact semicolon_notMem_listTokens _ hmem
      · exact (hafter _ hmem).2 rfl
  · rw [List.filterMap_append, List.filterMap_append, hbefore.values, hafter.values,
      listTokens_values, hvalues, List.nil_append, List.append_nil]
  · rw [lex, htext₀, hlist]
  · rw [List.map_append, List.map_append, hbefore.blank, hafter.blank, listTokens_blank]

/-- A request whose value is put between quotes as it is. -/
theorem faithful_single {value : String} (hvalues : r.values = [value])
    (htext : (build r).toList = f.text (quoted value.toList))
    (htext₀ : (build r.blank).toList = f.text (quoted [])) : r.Faithful ↔ '\'' ∉ value.toList := by
  constructor
  · rintro ⟨sql, tokens, hsql', hlex, -, hliterals, -⟩
    obtain rfl : build r = sql := Except.ok.inj ((hsql r rfl).symm.trans hsql')
    rw [lex, htext] at hlex
    rw [hvalues] at hliterals
    exact notMem_of_scan_text hlex hliterals
  · intro hquote
    -- a value without a quote is what `quoted_list` makes of it alone
    have hlist : ∀ value : String, '\'' ∉ value.toList →
        quoted value.toList = (quotedList [value]).toList := fun value hquote => by
      simp [quotedList, join, quoted, escaped_toList, escape_of_notMem hquote]
    exact faithful_list f build hsql hvalues (hlist value hquote ▸ htext)
      (htext₀.trans (congrArg f.text (hlist "" (by simp))))

end

/-! ### The operations -/

section Operations

variable {r : SqlRequest} (h : r.Named)

/-- The text that the statements with a `WHERE` put around their key or their keys. -/
def keyFrame (hpk : isIdentifier r.pkColumn) (front test back : String) (sep : Char)
    (hfront : Plain front.toList)
    (htest : Plain (test.toList ++ [sep])) (hsep : isSeparator sep = true)
    (hback : Plain back.toList) : Frame where
  pre := (front ++ r.tableName ++ " WHERE " ++ r.pkColumn ++ test).toList
  sep := sep
  post := back.toList
  plain_pre := by
    have hwhere : Plain " WHERE ".toList := by simp [Plain]
    simp only [String.toList_append, List.append_assoc, plain_append_iff] at htest ⊢
    exact ⟨hfront, h.tableName.plain, hwhere, hpk.plain, htest⟩
  isSeparator_sep := hsep
  plain_post := hback

/-- The text that the insertions and updates put around their payload. -/
def payloadFrame (front back : String) (hfront : Plain front.toList) (hback : Plain back.toList) :
    Frame where
  pre := (front ++ r.tableName ++ ",").toList
  sep := ' '
  post := back.toList
  plain_pre := by
    have hcomma : Plain (",".toList ++ [' ']) := by simp [Plain]
    simp only [String.toList_append, List.append_assoc, plain_append_iff] at hcomma ⊢
    exact ⟨hfront, h.tableName.plain, hcomma⟩
  isSeparator_sep := by decide
  plain_post := hback

/-- The statement around a key, as the builders concatenate it. -/
theorem keyFrame_text (hpk : isIdentifier r.pkColumn) (front back key : String)
    (hfront : Plain front.toList)
    (htest : Plain (" =".toList ++ [' '])) (hsep : isSeparator ' ' = true)
    (hback : Plain back.toList) :
    (front ++ r.tableName ++ " WHERE " ++ r.pkColumn ++ " = '" ++ key ++ ("'" ++ back)).toList =
      (keyFrame h hpk front " =" back ' ' hfront htest hsep hback).text (quoted key.toList) := by
  simp [Frame.text, keyFrame, quoted]

theorem keysFrame_text (hpk : isIdentifier r.pkColumn) (front back : String) (keys : List String)
    (hfront : Plain front.toList)
    (htest : Plain (" IN ".toList ++ ['('])) (hsep : isSeparator '(' = true)
    (hback : Plain back.toList) :
    (front ++ r.tableName ++ " WHERE " ++ r.pkColumn ++ " IN (" ++ quotedList keys ++ back).toList =
      (keyFrame h hpk front " IN " back '(' hfront htest hsep hback).text
        (quotedList keys).toList := by
  simp [Frame.text, keyFrame]

/-- The text after a payload, as one text. -/
theorem append_regroup (front quote a b c d : String) :
    front ++ (quote ++ a) ++ b ++ c ++ d = front ++ (quote ++ (a ++ (b ++ (c ++ d)))) := by
  simp only [String.append_assoc]

include h

theorem faithful_select (hop : r.op = "select") : r.Faithful ↔ '\'' ∉ r.key.toList := by
  have hfront : Plain "SELECT row_to_json(row) FROM (SELECT * FROM ".toList := by simp [Plain]
  have hback : Plain ") row".toList := by simp [Plain]
  have htext key :=
    keyFrame_text h (h.pkColumn (by simp [hop])) _ _ key hfront (by simp [Plain]) (by decide) hback
  exact faithful_single _ buildSelectSql (fun r' hr => by simp [encode, hr, hop])
    (by simp [values, hop]) (htext r.key) (htext "")

theorem faithful_delete (hop : r.op = "delete") : r.Faithful ↔ '\'' ∉ r.key.toList := by
  have hfront : Plain "DELETE FROM ".toList := by simp [Plain]
  have hback : Plain "".toList := by simp [Plain]
  have htext key :=
    keyFrame_text h (h.pkColumn (by simp [hop])) _ _ key hfront (by simp [Plain]) (by decide) hback
  exact faithful_single _ buildDeleteSql (fun r' hr => by simp [encode, hr, hop])
    (by simp [values, hop]) (htext r.key) (htext "")

theorem faithful_select_many (hop : r.op = "select_many") : r.Faithful := by
  have hfront : Plain "SELECT json_agg(row_to_json(row)) FROM (SELECT * FROM ".toList := by
    simp [Plain]
  have hback : Plain ")) row".toList := by simp [Plain]
  have htext keys := keysFrame_text h (h.pkColumn (by simp [hop])) _ _ keys hfront (by simp [Plain])
    (by decide) hback
  exact faithful_list _ buildSelectManySql (fun r' hr => by simp [encode, hr, hop])
    (by simp [values, hop]) (htext r.keys) (htext r.blank.keys)

theorem faithful_delete_many (hop : r.op = "delete_many") : r.Faithful := by
  have hfront : Plain "DELETE FROM ".toList := by simp [Plain]
  have hback : Plain ")".toList := by simp [Plain]
  have htext keys := keysFrame_text h (h.pkColumn (by simp [hop])) _ _ keys hfront (by simp [Plain])
    (by decide) hback
  exact faithful_list _ buildDeleteManySql (fun r' hr => by simp [encode, hr, hop])
    (by simp [values, hop]) (htext r.keys) (htext r.blank.keys)

/-- A request whose payload is put in a literal. -/
theorem faithful_payload {front back payload : String} (build : SqlRequest → String)
    (hsql : ∀ r' : SqlRequest, r'.op = r.op → encode r' = .ok (build r'))
    (hvalues : r.values = [payload]) (hfront : Plain front.toList) (hback : Plain back.toList)
    (hbuild : build r = front ++ r.tableName ++ ", '" ++ payload ++ ("'" ++ back))
    (hblank : build r.blank = front ++ r.tableName ++ ", '" ++ "" ++ ("'" ++ back)) :
    r.Faithful ↔ '\'' ∉ payload.toList := by
  refine faithful_single (payloadFrame h _ _ hfront hback) build hsql hvalues ?_ ?_
  · rw [hbuild]
    simp [Frame.text, payloadFrame, quoted]
  · rw [hblank]
    simp [Frame.text, payloadFrame, quoted]

/-- The front of the statements that read a record or a set of records from a payload. -/
theorem plain_insert {into : String} (hinto : Plain into.toList) :
    Plain ("INSERT INTO " ++ r.tableName ++ into).toList := by
  have hinsert : Plain "INSERT INTO ".toList := by simp [Plain]
  simp only [String.toList_append, plain_append_iff]
  exact ⟨⟨hinsert, h.tableName.plain⟩, hinto⟩

theorem faithful_insert (hop : r.op = "insert") : r.Faithful ↔ '\'' ∉ r.jsonPayload.toList := by
  have hfront := plain_insert h
    (show Plain " SELECT * FROM json_populate_record(NULL::".toList by simp [Plain])
  have hback : Plain ")".toList := by simp [Plain]
  exact faithful_payload h buildInsertSql (fun r' hr => by simp [encode, hr, hop])
    (by simp [values, hop]) hfront hback rfl rfl

theorem faithful_insert_many (hop : r.op = "insert_many") :
    r.Faithful ↔ '\'' ∉ r.jsonArrayPayload.toList := by
  have hfront := plain_insert h
    (show Plain " SELECT * FROM json_populate_recordset(NULL::".toList by simp [Plain])
  have hback : Plain ")".toList := by simp [Plain]
  exact faithful_payload h buildInsertManySql (fun r' hr => by simp [encode, hr, hop])
    (by simp [values, hop]) hfront hback rfl rfl

theorem faithful_update (hop : r.op = "update") : r.Faithful ↔ '\'' ∉ r.jsonPayload.toList := by
  have hfront : Plain ("UPDATE " ++ r.tableName ++ " AS target SET " ++
      join ", " (r.setColumns.map fun column => column ++ " = src." ++ column) ++
        " FROM json_populate_record(NULL::").toList := by
    have hupdate : Plain "UPDATE ".toList := by simp [Plain]
    have hset : Plain " AS target SET ".toList := by simp [Plain]
    have hfrom : Plain " FROM json_populate_record(NULL::".toList := by simp [Plain]
    have hlist := plain_assignments (h.setColumns hop) (show Plain " = src.".toList by simp [Plain])
    simp only [String.toList_append, plain_append_iff]
    exact ⟨⟨⟨⟨hupdate, h.tableName.plain⟩, hset⟩, hlist⟩, hfrom⟩
  have hback : Plain (") AS src WHERE target." ++
      (r.pkColumn ++ (" = src." ++ r.pkColumn))).toList := by
    have hwhere : Plain ") AS src WHERE target.".toList := by simp [Plain]
    have heq : Plain " = src.".toList := by simp [Plain]
    simp only [String.toList_append, plain_append_iff]
    have hpk := (h.pkColumn (by simp [hop])).plain
    exact ⟨hwhere, hpk, heq, hpk⟩
  have hquote : "') AS src WHERE target." = "'" ++ ") AS src WHERE target." := rfl
  refine faithful_payload h buildUpdateSql (fun r' hr => by simp [encode, hr, hop])
    (by simp [values, hop]) hfront hback ?_ ?_
  all_goals
    unfold buildUpdateSql
    simp only [hquote]
    exact append_regroup ..

theorem faithful_upsert (hop : r.op = "upsert") : r.Faithful ↔ '\'' ∉ r.jsonPayload.toList := by
  have hfront := plain_insert h
    (show Plain " SELECT * FROM json_populate_record(NULL::".toList by simp [Plain])
  have hback : Plain (") ON CONFLICT (" ++ (r.pkColumn ++ (") DO UPDATE SET " ++
      join ", "
        (r.updateColumns.map fun column => column ++ " = EXCLUDED." ++ column)))).toList := by
    have hconflict : Plain ") ON CONFLICT (".toList := by simp [Plain]
    have hset : Plain ") DO UPDATE SET ".toList := by simp [Plain]
    have hlist :=
      plain_assignments (h.updateColumns hop) (show Plain " = EXCLUDED.".toList by simp [Plain])
    simp only [String.toList_append, plain_append_iff] at hlist ⊢
    exact ⟨hconflict, (h.pkColumn (by simp [hop])).plain, hset, hlist⟩
  have hquote : "') ON CONFLICT (" = "'" ++ ") ON CONFLICT (" := rfl
  refine faithful_payload h buildUpsertSql (fun r' hr => by simp [encode, hr, hop])
    (by simp [values, hop]) hfront hback ?_ ?_
  all_goals
    unfold buildUpsertSql
    simp only [hquote]
    exact append_regroup ..

end Operations

/-- **When values cannot change a statement.** For a request with plain names, the
generated text is one statement whose tokens depend only on the operation, the names and
the number of keys, and in which each value is one literal of exactly that value, if and
only if the keys go through `quoted_list` or no value has a quote. -/
theorem faithful_iff {r : SqlRequest} (hop : r.op ∈ valueOps) (hnamed : r.Named) :
    r.Faithful ↔ r.escapes = true ∨ ∀ value ∈ r.values, '\'' ∉ value.toList := by
  simp only [valueOps, List.mem_cons, List.not_mem_nil, or_false] at hop
  rcases hop with hop | hop | hop | hop | hop | hop | hop | hop
  · simp [faithful_select hnamed hop, values, escapes, hop]
  · simp [faithful_select_many hnamed hop, escapes, hop]
  · simp [faithful_insert hnamed hop, values, escapes, hop]
  · simp [faithful_insert_many hnamed hop, values, escapes, hop]
  · simp [faithful_update hnamed hop, values, escapes, hop]
  · simp [faithful_upsert hnamed hop, values, escapes, hop]
  · simp [faithful_delete hnamed hop, values, escapes, hop]
  · simp [faithful_delete_many hnamed hop, escapes, hop]

/-- A request on a table `t` with the key column `k`. -/
def onTable (op : String) : SqlRequest where
  op := op
  tableName := "t"
  pkColumn := "k"

theorem named_onTable (op key payload : String) (keys : List String) :
    SqlRequest.Named { onTable op with key := key, keys := keys, jsonPayload := payload } where
  tableName := show isIdentifier "t" from ⟨by decide, by simp; decide⟩
  pkColumn := fun _ => show isIdentifier "k" from ⟨by decide, by simp; decide⟩
  setColumns := fun _ _ h => absurd h List.not_mem_nil
  updateColumns := fun _ _ h => absurd h List.not_mem_nil

/-- Keys with quotes in a list. -/
theorem faithful_iff_quoted_keys :
    SqlRequest.Faithful { onTable "delete_many" with keys := ["O'Brien", "'"] } :=
  (faithful_iff (by simp [valueOps, onTable]) (named_onTable "delete_many" "" "" _)).2
    (.inl (by simp [escapes, onTable]))

/-- A single key that ends its literal and goes on with a condition of its own. -/
theorem key_changes_statement :
    let r : SqlRequest := { onTable "delete" with key := "' OR 'a'='a" }
    r.Named ∧ ¬r.Faithful ∧
      (encode r).toOption = some "DELETE FROM t WHERE k = '' OR 'a'='a'" ∧
      (lex "DELETE FROM t WHERE k = '' OR 'a'='a'").map (List.filterMap Token.value?) =
        some [[], ['a'], ['a']] := by
  refine ⟨named_onTable "delete" _ "" [], ?_, by simp [encode, onTable, buildDeleteSql]; rfl,
    by decide +kernel⟩
  exact fun h => (faithful_delete (named_onTable "delete" _ "" []) rfl).1 h (by decide)

end Congelado.Sql
