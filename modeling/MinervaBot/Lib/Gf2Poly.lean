import Mathlib.Algebra.Field.ZMod
import Mathlib.Algebra.Polynomial.Div
import Mathlib.Data.Nat.Bitwise
import Mathlib.Data.Nat.Size

/-!
# Words as polynomials over GF(2)

A natural number stands for the polynomial whose coefficient at `X ^ i` is its bit `i` (`polyOf`):
`^^^` is addition, and a number is below `2 ^ d` exactly if its polynomial has a degree below `d`.
The long division of a bit string by a generator, bit by bit with one register (`longDivide`),
computes the remainder of the string's polynomial (`polyOf_longDivide`).
-/

namespace Lib

open Polynomial

/-! ## Words -/

/-- The polynomial of a word. -/
noncomputable def polyOf (n : ℕ) : (ZMod 2)[X] :=
  ∑ i ∈ Finset.range n.size, monomial i (if n.testBit i then 1 else 0)

@[simp] theorem coeff_polyOf (n i : ℕ) : (polyOf n).coeff i = if n.testBit i then 1 else 0 := by
  have hout : ¬ i < n.size → n.testBit i = false := fun hi =>
    Nat.testBit_eq_false_of_lt (Nat.size_le.1 (not_lt.1 hi))
  by_cases hi : i < n.size
  · simp [polyOf, coeff_monomial, hi]
  · simp [polyOf, coeff_monomial, hi, hout hi]

@[simp] theorem polyOf_zero : polyOf 0 = 0 := by
  ext i
  simp

/-- Exclusive or is addition. -/
theorem polyOf_xor (a b : ℕ) : polyOf (a ^^^ b) = polyOf a + polyOf b := by
  ext i
  simp only [coeff_polyOf, coeff_add, Nat.testBit_xor]
  cases a.testBit i <;> cases b.testBit i <;> decide

theorem polyOf_two_pow (k : ℕ) : polyOf (2 ^ k) = X ^ k := by
  ext i
  simp [Nat.testBit_two_pow, coeff_X_pow, eq_comm]

/-- A word is its polynomial. -/
theorem polyOf_injective : Function.Injective polyOf := by
  intro a b h
  refine Nat.eq_of_testBit_eq fun i => ?_
  have hi := congrArg (coeff · i) h
  simp only [coeff_polyOf] at hi
  cases ha : a.testBit i <;> cases hb : b.testBit i <;> simp [ha, hb] at hi ⊢

/-- The polynomial of a word of `d` bits. -/
theorem degree_polyOf_lt {n d : ℕ} (h : n < 2 ^ d) : (polyOf n).degree < d := by
  rw [degree_lt_iff_coeff_zero]
  intro i hi
  have hbit := Nat.testBit_lt_two_pow (h.trans_le (Nat.pow_le_pow_right (by omega) hi))
  rw [coeff_polyOf, hbit]
  rfl

/-- One more bit at the low end. -/
theorem polyOf_bit (n : ℕ) (b : Bool) :
    polyOf (2 * n + b.toNat) = polyOf n * X + C (if b then 1 else 0) := by
  ext i
  cases i with
  | zero => cases b <;> simp
  | succ i =>
    have hdiv : (2 * n + b.toNat) / 2 = n := by
      have hb := b.toNat_le
      omega
    rw [coeff_polyOf, Nat.testBit_succ, hdiv, coeff_add, coeff_mul_X, coeff_polyOf, coeff_C_succ,
      add_zero]

/-! ## Bit strings -/

/-- The polynomial of a bit string, most significant bit first. -/
noncomputable def bitsPoly (bits : List Bool) : (ZMod 2)[X] :=
  bits.foldl (fun p b => p * X + C (if b then 1 else 0)) 0

/-- The `w` low bits of a word, most significant bit first. -/
def bitsOf : ℕ → ℕ → List Bool
  | 0, _ => []
  | w + 1, n => bitsOf w (n / 2) ++ [n.testBit 0]

@[simp] theorem bitsPoly_nil : bitsPoly [] = 0 := rfl

theorem bitsPoly_concat (bits : List Bool) (b : Bool) :
    bitsPoly (bits ++ [b]) = bitsPoly bits * X + C (if b then 1 else 0) := by
  simp [bitsPoly]

/-- Two bit strings one behind the other. -/
theorem bitsPoly_append (bits : List Bool) : ∀ bits' : List Bool,
    bitsPoly (bits ++ bits') = bitsPoly bits * X ^ bits'.length + bitsPoly bits' := by
  intro bits'
  induction bits' using List.reverseRecOn with
  | nil => simp
  | append_singleton bits' b ih =>
    rw [← List.append_assoc, bitsPoly_concat, bitsPoly_concat, ih, List.length_append,
      List.length_singleton]
    ring

@[simp] theorem length_bitsOf : ∀ w n : ℕ, (bitsOf w n).length = w
  | 0, _ => rfl
  | w + 1, n => by simp [bitsOf, length_bitsOf w]

/-- The bits of a word. -/
theorem bitsPoly_bitsOf : ∀ {w n : ℕ}, n < 2 ^ w → bitsPoly (bitsOf w n) = polyOf n
  | 0, n, h => by
    obtain rfl : n = 0 := by simpa using h
    simp [bitsOf]
  | w + 1, n, h => by
    have hhalf : n / 2 < 2 ^ w := by
      rw [Nat.pow_succ] at h
      omega
    have hbit : 2 * (n / 2) + (n.testBit 0).toNat = n := by
      rw [Nat.testBit_zero]
      rcases Nat.mod_two_eq_zero_or_one n with hn | hn <;> simp [hn] <;> omega
    rw [bitsOf, bitsPoly_concat, bitsPoly_bitsOf hhalf, ← polyOf_bit, hbit]

/-- Zeros behind a bit string. -/
theorem bitsPoly_zeros (bits : List Bool) (k : ℕ) :
    bitsPoly (bits ++ List.replicate k false) = bitsPoly bits * X ^ k := by
  have hzero : bitsPoly (List.replicate k false) = 0 := by
    induction k with
    | zero => rfl
    | succ k ih => simp [List.replicate_succ', bitsPoly_concat, ih]
  rw [bitsPoly_append, hzero, List.length_replicate, add_zero]

/-! ## Long division -/

/-- One step of a long division by a generator of degree `d`: shift the next bit in, and subtract
the generator if the bit at `d` is set. -/
def divideStep (g d r : ℕ) (b : Bool) : ℕ :=
  let s := 2 * r + b.toNat
  if s.testBit d then s ^^^ g else s

/-- The remainder of a bit string, computed bit by bit. -/
def longDivide (g d : ℕ) (bits : List Bool) : ℕ :=
  bits.foldl (divideStep g d) 0

section
variable {g d r : ℕ}

/-- Two words of degree `d` differ in lower bits. -/
theorem xor_lt_two_pow {s : ℕ} (hs : s < 2 ^ (d + 1)) (hsd : s.testBit d = true)
    (hg : g < 2 ^ (d + 1)) (hgd : g.testBit d = true) : s ^^^ g < 2 ^ d := by
  refine Nat.lt_pow_two_of_testBit _ fun i hi => ?_
  rcases Nat.eq_or_lt_of_le hi with rfl | hlt
  · rw [Nat.testBit_xor, hsd, hgd]
    rfl
  · have hle : 2 ^ (d + 1) ≤ 2 ^ i := Nat.pow_le_pow_right (by omega) hlt
    rw [Nat.testBit_xor, Nat.testBit_lt_two_pow (hs.trans_le hle),
      Nat.testBit_lt_two_pow (hg.trans_le hle)]
    rfl

/-- A generator of degree `d` is monic. -/
theorem polyOf_monic (hg : g < 2 ^ (d + 1)) (hgd : g.testBit d = true) : (polyOf g).Monic := by
  refine monic_of_degree_le d ((degree_le_iff_coeff_zero _ _).2 fun i hi => ?_) (by simp [hgd])
  have hlt : d < i := by exact_mod_cast hi
  have hbit := Nat.testBit_lt_two_pow (hg.trans_le (Nat.pow_le_pow_right (by omega) hlt))
  simp [hbit]

/-- The degree of a generator. -/
theorem le_degree_polyOf (hgd : g.testBit d = true) : (d : WithBot ℕ) ≤ (polyOf g).degree :=
  le_degree_of_ne_zero (by simp [hgd])

/-- The remainder fits the register. -/
theorem divideStep_lt (hg : g < 2 ^ (d + 1)) (hgd : g.testBit d = true) (hr : r < 2 ^ d)
    (b : Bool) : divideStep g d r b < 2 ^ d := by
  have hs : 2 * r + b.toNat < 2 ^ (d + 1) := by
    have hb := b.toNat_le
    rw [Nat.pow_succ]
    omega
  simp only [divideStep]
  split
  · next hsd => exact xor_lt_two_pow hs hsd hg hgd
  · next hsd =>
    by_contra hlt
    exact hsd (Nat.testBit_of_two_pow_le_and_two_pow_add_one_gt (not_lt.1 hlt) hs)

/-- A step multiplies the remainder by `X`, adds the next coefficient and reduces the sum. -/
theorem polyOf_divideStep (hg : g < 2 ^ (d + 1)) (hgd : g.testBit d = true) (hr : r < 2 ^ d)
    (b : Bool) :
    polyOf (divideStep g d r b) = (polyOf r * X + C (if b then 1 else 0)) %ₘ polyOf g := by
  have hdegree : (polyOf (divideStep g d r b)).degree < (polyOf g).degree :=
    (degree_polyOf_lt (divideStep_lt hg hgd hr b)).trans_le (le_degree_polyOf hgd)
  have hmonic := polyOf_monic hg hgd
  rw [← polyOf_bit]
  simp only [divideStep] at hdegree ⊢
  split
  · next hsd =>
    rw [if_pos hsd] at hdegree
    refine (div_modByMonic_unique 1 _ hmonic ⟨?_, hdegree⟩).2.symm
    rw [mul_one, ← polyOf_xor, Nat.xor_assoc, Nat.xor_self, Nat.xor_zero]
  · next hsd =>
    rw [if_neg hsd] at hdegree
    exact ((modByMonic_eq_self_iff hmonic).2 hdegree).symm

/-- A sum's remainder depends on the remainder of its first part only. -/
theorem mul_add_modByMonic {q : (ZMod 2)[X]} (p s t : (ZMod 2)[X]) :
    ((p %ₘ q) * s + t) %ₘ q = (p * s + t) %ₘ q := by
  have hmul : ((p %ₘ q) * s) %ₘ q = (p * s) %ₘ q := by
    by_cases hq : q.Monic
    · refine modByMonic_eq_of_dvd_sub hq ?_
      rw [← sub_mul]
      exact (dvd_modByMonic_sub p q).mul_right s
    · rw [modByMonic_eq_of_not_monic p hq]
  rw [add_modByMonic, add_modByMonic, hmul]

/-- The long division of a bit string computes the remainder of its polynomial. -/
theorem polyOf_longDivide (hg : g < 2 ^ (d + 1)) (hgd : g.testBit d = true) (bits : List Bool) :
    longDivide g d bits < 2 ^ d ∧ polyOf (longDivide g d bits) = bitsPoly bits %ₘ polyOf g := by
  induction bits using List.reverseRecOn with
  | nil => exact ⟨Nat.two_pow_pos d, by simp [longDivide]⟩
  | append_singleton bits b ih =>
    obtain ⟨hlt, hpoly⟩ := ih
    rw [longDivide, List.foldl_append, List.foldl_cons, List.foldl_nil, ← longDivide]
    refine ⟨divideStep_lt hg hgd hlt b, ?_⟩
    rw [polyOf_divideStep hg hgd hlt, hpoly, mul_add_modByMonic, bitsPoly_concat]

end

end Lib
