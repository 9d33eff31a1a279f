import MinervaBot.Crc8
import MinervaBot.Lib.Gf2Poly

/-!
# The hash is a remainder

`crc8_block` computes the remainder of the polynomial of its bytes, times `X ^ 8`, by `X ^ 8 + X ^ 7
+ X ^ 4 + X ^ 3 + X + 1`: a pass of the bit loop of `crc8_init` is a step of the long division with
a zero shifted in (`crc8Shift_toNat`), so an entry of the table is the remainder of its index times
`X ^ 8`, and a pass of `crc8_block` appends a byte to the dividend (`crc8Block_eq_longDivide`).
-/

namespace MinervaBot

open Lib Polynomial

/-- The generator as a word, `CRC8_POLYNOMIAL` with its leading bit. -/
def crc8Generator : ℕ :=
  2 ^ 8 + crc8Polynomial.toNat

/-- The bits of a byte string, most significant bit first. -/
def messageBits (bytes : List UInt8) : List Bool :=
  bytes.flatMap fun byte => bitsOf 8 byte.toNat

/-- The generator is `X ^ 8 + X ^ 7 + X ^ 4 + X ^ 3 + X + 1`. -/
theorem polyOf_crc8Generator :
    polyOf crc8Generator = X ^ 8 + X ^ 7 + X ^ 4 + X ^ 3 + X + 1 := by
  have hxor : crc8Generator = 2 ^ 8 ^^^ 2 ^ 7 ^^^ 2 ^ 4 ^^^ 2 ^ 3 ^^^ 2 ^ 1 ^^^ 2 ^ 0 := by decide
  rw [hxor]
  simp only [polyOf_xor, polyOf_two_pow, -Nat.reducePow]
  rw [pow_one, pow_zero]

theorem crc8Generator_lt : crc8Generator < 2 ^ (8 + 1) := by decide

theorem crc8Generator_testBit : crc8Generator.testBit 8 = true := by decide

/-- A pass of the bit loop divides with a zero shifted in. -/
theorem crc8Shift_toNat (r : UInt8) :
    (crc8Shift r).toNat = divideStep crc8Generator 8 r.toNat false := by
  have h : ∀ r, (crc8Shift r).toNat = divideStep crc8Generator 8 r.toNat false :=
    forall_byte (by decide +kernel)
  exact h r

/-- The bit loop multiplies by a power of `X`. -/
theorem polyOf_crc8Divide : ∀ (n : ℕ) (r : UInt8),
    polyOf (crc8Divide n r).toNat = (polyOf r.toNat * X ^ n) %ₘ polyOf crc8Generator
  | 0, r => by
    have hmonic := polyOf_monic crc8Generator_lt crc8Generator_testBit
    have hdegree : (polyOf r.toNat).degree < (polyOf crc8Generator).degree :=
      (degree_polyOf_lt r.toNat_lt).trans_le (le_degree_polyOf crc8Generator_testBit)
    rw [pow_zero, mul_one, (modByMonic_eq_self_iff hmonic).2 hdegree, crc8Divide]
  | n + 1, r => by
    have hstep := polyOf_divideStep crc8Generator_lt crc8Generator_testBit r.toNat_lt false
    have hred := mul_add_modByMonic (q := polyOf crc8Generator) (polyOf r.toNat * X) (X ^ n) 0
    simp only [Bool.false_eq_true, if_false, map_zero, add_zero] at hstep hred
    rw [crc8Divide, polyOf_crc8Divide n, crc8Shift_toNat, hstep, hred, mul_assoc, ← pow_succ']

/-- The byte that a pass of `crc8_block` leaves: the shifted remainder is cut off. -/
theorem crc8Step_eq (r byte : UInt8) : crc8Step r byte = table8 (byte ^^^ r) := by
  have hcut : (r.toUInt32 <<< 8).toUInt8 = 0 := by
    apply UInt8.toNat_inj.1
    simp [Nat.shiftLeft_eq]
  simp [crc8Step, hcut]

/-- A pass of `crc8_block` appends a byte to the dividend. -/
theorem polyOf_crc8Step (r byte : UInt8) :
    polyOf (crc8Step r byte).toNat =
      ((polyOf r.toNat + polyOf byte.toNat) * X ^ 8) %ₘ polyOf crc8Generator := by
  rw [crc8Step_eq, table8, polyOf_crc8Divide, UInt8.toNat_xor, polyOf_xor, add_comm]

/-- The polynomial of one more byte. -/
theorem bitsPoly_messageBits_concat (bytes : List UInt8) (byte : UInt8) :
    bitsPoly (messageBits (bytes ++ [byte])) =
      bitsPoly (messageBits bytes) * X ^ 8 + polyOf byte.toNat := by
  have hbits : messageBits (bytes ++ [byte]) = messageBits bytes ++ bitsOf 8 byte.toNat := by
    simp [messageBits]
  rw [hbits, bitsPoly_append, length_bitsOf, bitsPoly_bitsOf byte.toNat_lt]

/-- The remainder that the loop of `crc8_block` ends with. Induction from the end: the last byte is
the one that is not multiplied yet. -/
theorem polyOf_crc8Fold (bytes : List UInt8) :
    polyOf (bytes.foldl crc8Step 0).toNat =
      (bitsPoly (messageBits bytes) * X ^ 8) %ₘ polyOf crc8Generator := by
  induction bytes using List.reverseRecOn with
  | nil => simp [messageBits]
  | append_singleton bytes byte ih =>
    have hred := mul_add_modByMonic (q := polyOf crc8Generator)
      (bitsPoly (messageBits bytes) * X ^ 8) (X ^ 8) (polyOf byte.toNat * X ^ 8)
    rw [List.foldl_append, List.foldl_cons, List.foldl_nil, polyOf_crc8Step, ih, add_mul, hred,
      ← add_mul, bitsPoly_messageBits_concat]

/-- `& 0xff` changes nothing. -/
theorem crc8Block_toNat (bytes : List UInt8) :
    (crc8Block bytes).toNat = (bytes.foldl crc8Step 0).toNat := by
  have hmask : (crc8Block bytes).toNat = (bytes.foldl crc8Step 0).toNat &&& (2 ^ 8 - 1) := by
    simp [crc8Block]
  rw [hmask]
  exact Nat.and_two_pow_sub_one_of_lt_two_pow (UInt8.toNat_lt _)

/-- The hash of a byte string is below 256, it is the remainder of the string's polynomial times
`X ^ 8` by the generator, and it is what the long division computes bit by bit from the string with
eight zeros behind it. -/
theorem crc8Block_eq_longDivide (bytes : List UInt8) :
    (crc8Block bytes).toNat < 256 ∧
      polyOf (crc8Block bytes).toNat = (bitsPoly (messageBits bytes) * X ^ 8) %ₘ
        (X ^ 8 + X ^ 7 + X ^ 4 + X ^ 3 + X + 1) ∧
      (crc8Block bytes).toNat =
        longDivide crc8Generator 8 (messageBits bytes ++ List.replicate 8 false) := by
  have hpoly := polyOf_crc8Fold bytes
  rw [← crc8Block_toNat] at hpoly
  refine ⟨crc8Block_lt bytes, by rw [hpoly, polyOf_crc8Generator], polyOf_injective ?_⟩
  rw [hpoly, ← bitsPoly_zeros]
  exact (polyOf_longDivide crc8Generator_lt crc8Generator_testBit _).2.symm

end MinervaBot
