import Congelado.Codec.Wire

/-!
# Blocks that fail

A decoder that throws has decoded the fields before the one that it throws at: their headers are in
the target and their entries in the table. `feed` is what the decoder has done then, and `decode` is
what it has done if it does not throw (`decode_eq`).
-/

namespace Congelado.Codec

open HpackDecoder Fallible

variable {hit : Layout}

/-- What the decoder has done with a block when it ends or throws: the bytes it has read, the
headers it has added to the target, the table it leaves and what it throws. -/
structure Fed where
  consumed : ℕ := 0
  headers : List HeaderEntry := []
  table : HPackTable
  error : Option CodecError := none

/-- What was done, as the result of a call. -/
def Fed.result (fed : Fed) : Except CodecError (List HeaderEntry × HPackTable) :=
  match fed.error with
  | some e => .error e
  | none => .ok (fed.headers, fed.table)

/-- A field that fails leaves the table as it is. -/
def feedFrom (hit : Layout) (W : ℕ) : ℕ → List UInt8 → HPackTable → Fed
  | 0, _, table => { table }
  | _ + 1, [], table => { table }
  | rounds + 1, first :: rest, table =>
    match decodeField hit W first (first :: rest) table with
    | .error e => { table, error := some e }
    | .ok step =>
      let fed := feedFrom hit W rounds ((first :: rest).drop step.consumed) step.table
      { consumed := step.consumed + fed.consumed
        headers := step.headers ++ fed.headers
        table := fed.table
        error := fed.error }

/-- `operator()`. -/
def feed (hit : Layout) (W : ℕ) (data : List UInt8) (table : HPackTable) : Fed :=
  feedFrom hit W data.length data table

theorem decodeFrom_eq {W : ℕ} (rounds : ℕ) (data : List UInt8) (table : HPackTable) :
    decodeFrom hit W rounds data table = (feedFrom hit W rounds data table).result := by
  induction rounds generalizing data table with
  | zero => rfl
  | succ rounds ih =>
    cases data with
    | nil => rfl
    | cons first rest =>
      rw [decodeFrom, feedFrom]
      cases decodeField hit W first (first :: rest) table with
      | error e => rfl
      | ok step =>
        simp only [ok_bind, ih, Fed.result]
        cases (feedFrom hit W rounds ((first :: rest).drop step.consumed) step.table).error <;> rfl

/-- A block that is decoded is what was done with it. -/
theorem decode_eq {W : ℕ} (data : List UInt8) (table : HPackTable) :
    decode hit W data table = (feed hit W data table).result :=
  decodeFrom_eq data.length data table

end Congelado.Codec
