import Congelado.Lib.Attempt

/-!
# The reader

`BufferReader` is a chain of nodes with the bytes that were received, an offset into the first node,
and a count of the bytes that is kept beside the chain. Here the chain is the list of its unread
bytes. The count is what `size` reports and what a counted iteration goes by; `grow_view` takes
bytes off the chain and leaves the count, so that the two part (`Reader.Synced`).
-/

namespace Congelado.Http2

structure Reader where
  /-- The unread bytes of the nodes. -/
  rest : List UInt8 := []
  /-- The counter `m_size`. -/
  size : ℕ := 0
  deriving DecidableEq

namespace Reader

/-- `push_back` of a node. -/
def pushBack (bytes : List UInt8) (reader : Reader) : Reader where
  rest := reader.rest ++ bytes
  size := reader.size + bytes.length

/-- The callers have checked that the counter allows it. -/
def consume (bytes : ℕ) (reader : Reader) : Reader where
  rest := reader.rest.drop bytes
  size := reader.size - bytes

/-- What `grow_view` puts into the view. -/
def viewed (length : ℕ) (reader : Reader) : List UInt8 := reader.rest.take length

/-- What `grow_view` leaves. -/
def growView (length : ℕ) (reader : Reader) : Reader :=
  { reader with rest := reader.rest.drop length }

/-- `reader | std::views::take(count)`: as many bytes as the counter allows. There are none if the
iteration runs past the last node. -/
def take (count : ℕ) (reader : Reader) : Option (List UInt8) :=
  if reader.rest.length < min count reader.size then none
  else some (reader.rest.take (min count reader.size))

/-- The counter is the number of the unread bytes. -/
def Synced (reader : Reader) : Prop := reader.size = reader.rest.length

instance (reader : Reader) : Decidable reader.Synced := inferInstanceAs (Decidable (_ = _))

variable {reader : Reader}

theorem Synced.pushBack (h : reader.Synced) (bytes : List UInt8) :
    (reader.pushBack bytes).Synced := by
  rw [Synced, Reader.pushBack, List.length_append, h]

theorem Synced.consume (h : reader.Synced) (bytes : ℕ) : (reader.consume bytes).Synced := by
  rw [Synced, Reader.consume, List.length_drop, h]

theorem Synced.take (h : reader.Synced) (count : ℕ) :
    reader.take count = some (reader.rest.take count) := by
  have hmin : ¬reader.rest.length < min count reader.size := by rw [h]; omega
  rw [Reader.take, if_neg hmin, h, ← List.take_eq_take_min]

end Reader

end Congelado.Http2
