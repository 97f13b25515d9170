import Congelado.Codec.Table

/-!
# The insert count of a field section

`QPackTable` sends the number of inserts that a field section requires modulo twice the number of
entries that the table can hold. The decoder finds it again as long as it is near the number of
inserts that the decoder has seen.
-/

namespace Congelado.Codec.QPackTable

variable (dyn : DynamicTable)

def encodeRic (ric : ℕ) : ℕ :=
  if ric = 0 then 0
  else
    let maxEntries := dyn.maxSize / 32
    ric % (2 * maxEntries) + 1

/-- The two sums are words; nothing else can leave the range of a word. -/
def decodeRic (encRic : ℕ) : ℕ :=
  if encRic = 0 then 0
  else
    let maxEntries := dyn.maxSize / 32
    let fullRange := 2 * maxEntries
    let totalInst := dyn.generation
    let maxRic := (totalInst + maxEntries) % 2 ^ 64
    let ric := (maxRic / fullRange * fullRange + (encRic - 1)) % 2 ^ 64
    if maxRic < ric ∧ fullRange ≤ ric then ric - fullRange else ric

/-- Of the numbers with a remainder, the one in the range below `m` is next to the multiple of the
range that `m` begins with. -/
theorem reconstruct {m n r : ℕ} (hlow : m < r + n) (hhigh : r ≤ m) :
    (if m < m / n * n + r % n ∧ n ≤ m / n * n + r % n then m / n * n + r % n - n
      else m / n * n + r % n) = r := by
  have hn : 0 < n := by omega
  have hm := Nat.div_add_mod' m n
  have hr := Nat.div_add_mod' r n
  have hmlt := Nat.mod_lt m hn
  obtain hquot | hquot : r / n = m / n ∨ r / n + 1 = m / n := by
    have hle : r / n ≤ m / n := Nat.div_le_div_right hhigh
    have hge : m / n ≤ r / n + 1 := by
      rw [← Nat.add_div_right r hn]
      exact Nat.div_le_div_right hlow.le
    omega
  · rw [← hquot, hr, if_neg (by omega)]
  · have hsum : m / n * n + r % n = r + n := by
      rw [← hquot, Nat.add_mul, Nat.one_mul]
      omega
    rw [hsum, if_pos (by constructor <;> omega), Nat.add_sub_cancel]

/-- **Round trip of the required insert count**, where neither sum of the decoder overflows. -/
theorem decodeRic_encodeRic {encoder decoder : DynamicTable} {r : ℕ}
    (hcapacity : encoder.maxSize = decoder.maxSize) (hr : 1 ≤ r)
    (hlow : decoder.generation < r + decoder.maxSize / 32)
    (hhigh : r ≤ decoder.generation + decoder.maxSize / 32)
    (hmax : decoder.generation + decoder.maxSize / 32 < 2 ^ 64)
    (hsum : (decoder.generation + decoder.maxSize / 32) / (2 * (decoder.maxSize / 32)) *
      (2 * (decoder.maxSize / 32)) + r % (2 * (decoder.maxSize / 32)) < 2 ^ 64) :
    decodeRic decoder (encodeRic encoder r) = r := by
  rw [encodeRic, hcapacity, if_neg (by omega), decodeRic, if_neg (Nat.succ_ne_zero _)]
  simp only [Nat.add_sub_cancel, Nat.mod_eq_of_lt hmax, Nat.mod_eq_of_lt hsum]
  exact reconstruct (by omega) hhigh

/-- A decoder that is behind by three inserts, where the remainder has come round. -/
theorem decodeRic_encodeRic_behind :
    decodeRic { generation := 254 } (encodeRic { generation := 257 } 257) = 257 :=
  decodeRic_encodeRic rfl (by decide) (by decide) (by decide) (by decide) (by decide)

end Congelado.Codec.QPackTable
