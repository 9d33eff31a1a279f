import MinervaBot.Lib.CString

/-!
# CRC-8

The hash of `hashmap.c`: `crc8_init` fills a table with the remainders of the 256 byte values, and
`crc8_block` folds a byte string through it. The result is below 256 (`crc8Block_lt`), so it indexes
the bucket array, and every bucket is the bucket of some string (`exists_crc8Block_eq`).
-/

namespace MinervaBot

open Lib

/-- `CRC8_TOPBIT`. -/
def crc8Topbit : UInt8 := (1 : UInt8) <<< (7 : UInt8)

/-- `CRC8_POLYNOMIAL`. -/
def crc8Polynomial : UInt8 := 0x9b

/-- One pass of the bit loop of `crc8_init`. -/
def crc8Shift (remainder : UInt8) : UInt8 :=
  if remainder &&& crc8Topbit ≠ 0 then (remainder <<< 1) ^^^ crc8Polynomial else remainder <<< 1

/-- The bit loop of `crc8_init`, with `bit` passes to go. -/
def crc8Divide : Nat → UInt8 → UInt8
  | 0, remainder => remainder
  | bit + 1, remainder => crc8Divide bit (crc8Shift remainder)

/-- `table8[dividend]` as `crc8_init` leaves it. -/
def table8 (dividend : UInt8) : UInt8 :=
  crc8Divide 8 dividend

/-- One pass of the loop of `crc8_block`. The `int` on the right is cut to `unsigned char`. -/
def crc8Step (remainder byte : UInt8) : UInt8 :=
  let data := byte ^^^ remainder
  ((table8 data).toUInt32 ^^^ (remainder.toUInt32 <<< 8)).toUInt8

/-- `crc8_block`. -/
def crc8Block (bytes : List UInt8) : UInt16 :=
  (bytes.foldl crc8Step 0).toUInt16 &&& 0xff

/-- The hash of a string is below the number of buckets. -/
theorem crc8Block_lt (bytes : List UInt8) : (crc8Block bytes).toNat < 256 := by
  have h : (crc8Block bytes).toNat = (bytes.foldl crc8Step 0).toUInt16.toNat &&& 255 := by
    simp [crc8Block]
  have hle : (bytes.foldl crc8Step 0).toUInt16.toNat &&& 255 ≤ 255 := Nat.and_le_right
  omega

/-! ## Every bucket is reached -/

/-- The inverse of `crc8Shift`: the polynomial is odd, so its last bit tells whether it was
subtracted. -/
def crc8Unshift (remainder : UInt8) : UInt8 :=
  if remainder &&& 1 ≠ 0 then ((remainder ^^^ crc8Polynomial) >>> 1) ||| crc8Topbit
  else remainder >>> 1

/-- `crc8Shift` undoes `crc8Unshift`. -/
theorem crc8Shift_crc8Unshift (r : UInt8) : crc8Shift (crc8Unshift r) = r := by
  have h : ∀ r, crc8Shift (crc8Unshift r) = r := forall_byte (by decide +kernel)
  exact h r

/-- Eight bit passes reach every remainder. -/
theorem exists_table8_eq (r : UInt8) : ∃ d, table8 d = r := by
  have h : ∀ n r, ∃ d, crc8Divide n d = r := by
    intro n
    induction n with
    | zero => exact fun r => ⟨r, rfl⟩
    | succ n ih =>
      intro r
      obtain ⟨d, hd⟩ := ih r
      exact ⟨crc8Unshift d, by rw [crc8Divide, crc8Shift_crc8Unshift, hd]⟩
  exact h 8 r

/-- Every hash value is the hash of a string of at most one byte. -/
theorem exists_crc8Block_eq {i : Nat} (hi : i < 256) :
    ∃ s : CString, s.length ≤ 1 ∧ (crc8Block s.bytes).toNat = i := by
  obtain ⟨d, hd⟩ := exists_table8_eq (.ofNat i)
  have hstep : ∀ d, crc8Step 0 d = table8 d := fun d => by simp [crc8Step]
  have hval : (crc8Block [d]).toNat = i := by
    simp [crc8Block, hstep, hd, Nat.mod_eq_of_lt hi]
    exact Nat.and_two_pow_sub_one_of_lt_two_pow (n := 8) hi
  by_cases h0 : d = 0
  · refine ⟨⟨[], by simp⟩, by simp [CString.length], ?_⟩
    subst h0
    rw [← hval]
    decide
  · exact ⟨⟨[d], by simpa using Ne.symm h0⟩, by simp [CString.length], hval⟩

end MinervaBot
