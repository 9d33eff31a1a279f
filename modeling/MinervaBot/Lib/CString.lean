import Mathlib.Algebra.Order.Ring.Int
import Mathlib.Data.List.TakeWhile

/-!
# C strings and flat byte memory

A C string is a sequence of nonzero bytes with a terminator behind it. `CString` carries the
absence of NUL bytes as a field, so that `strlen`, `strcmp` and `strchr` need no side conditions.
`Mem` is the byte memory around an array: the array starts at index `0`, and an index outside the
array is a byte of whatever object lies there. `Mem.cstr` reads the string that starts at an index,
and `Mem.cstr_eq` is the rule by which a memory known to hold a string reads as that string.
-/

namespace Lib

/-- What holds of the 256 bytes holds of every byte. -/
theorem forall_byte {p : UInt8 → Prop} (h : ∀ n : Fin 256, p (.ofNat n)) (c : UInt8) : p c := by
  simpa using h ⟨c.toNat, c.toNat_lt⟩

/-- The bytes of a C string before its terminator, none of which is NUL. -/
structure CString where
  bytes : List UInt8
  noNul : 0 ∉ bytes
  deriving DecidableEq

namespace CString

/-- Two strings with the same bytes are the same string (`strcmp` returns `0`). -/
@[ext] theorem ext {s t : CString} (h : s.bytes = t.bytes) : s = t := by
  cases s; cases t; simpa using h

/-- The C string that starts where the bytes `b` start: everything before the first NUL. -/
def ofBytes (b : List UInt8) : CString where
  bytes := b.takeWhile (· != 0)
  noNul h := by simpa using List.mem_takeWhile_imp h

/-- The string literal `s`, for ASCII text. -/
def lit (s : String) : CString :=
  ofBytes (s.toList.map Char.toUInt8)

/-- `strlen`. -/
def length (s : CString) : Nat :=
  s.bytes.length

instance : Append CString :=
  ⟨fun s t => ⟨s.bytes ++ t.bytes, by simp [s.noNul, t.noNul]⟩⟩

/-- The first `n` bytes of a string (a NUL written at index `n`). -/
def take (s : CString) (n : Nat) : CString :=
  ⟨s.bytes.take n, fun h => s.noNul (List.mem_of_mem_take h)⟩

/-- The string at `s + n`, for `n` up to the length of `s`. -/
def drop (s : CString) (n : Nat) : CString :=
  ⟨s.bytes.drop n, fun h => s.noNul (List.mem_of_mem_drop h)⟩

/-- `strchr(s, c) - s` for a byte `c` other than NUL, and `none` where `strchr` returns `NULL`. -/
def strchr (s : CString) (c : UInt8) : Option Nat :=
  s.bytes.findIdx? (· == c)

@[simp] theorem bytes_append (s t : CString) : (s ++ t).bytes = s.bytes ++ t.bytes := rfl
@[simp] theorem bytes_take (s : CString) (n : Nat) : (s.take n).bytes = s.bytes.take n := rfl
@[simp] theorem bytes_drop (s : CString) (n : Nat) : (s.drop n).bytes = s.bytes.drop n := rfl

@[simp] theorem length_append (s t : CString) : (s ++ t).length = s.length + t.length := by
  simp [length]

@[simp] theorem length_take (s : CString) (n : Nat) : (s.take n).length = min n s.length := by
  simp [length]

theorem length_drop (s : CString) (n : Nat) : (s.drop n).length = s.length - n := by
  simp [length]

/-- `strchr` finds the first occurrence. -/
theorem strchr_eq_some_iff {s : CString} {c : UInt8} {i : Nat} :
    s.strchr c = some i ↔
      ∃ pre post, s.bytes = pre ++ c :: post ∧ c ∉ pre ∧ pre.length = i := by
  rw [strchr, List.findIdx?_eq_some_iff_getElem]
  constructor
  · rintro ⟨hi, hc, hpre⟩
    have hc : s.bytes[i] = c := by simpa using hc
    refine ⟨s.bytes.take i, s.bytes.drop (i + 1), ?_, ?_, by simp; omega⟩
    · rw [← hc, ← List.drop_eq_getElem_cons hi, List.take_append_drop]
    · intro hmem
      obtain ⟨j, hj, heq⟩ := List.mem_iff_getElem.1 hmem
      rw [List.length_take] at hj
      rw [List.getElem_take] at heq
      exact absurd heq (by simpa using hpre j (by omega))
  · rintro ⟨pre, post, heq, hpre, rfl⟩
    simp only [heq]
    refine ⟨by simp, by simp, fun j hj => ?_⟩
    rw [List.getElem_append_left hj]
    simpa using ne_of_mem_of_not_mem (List.getElem_mem hj) hpre

/-- What `strchr` finds lies inside the string. -/
theorem lt_length_of_strchr {s : CString} {c : UInt8} {i : Nat} (h : s.strchr c = some i) :
    i < s.length := by
  obtain ⟨pre, post, hs, -, rfl⟩ := strchr_eq_some_iff.1 h
  simp [length, hs]

/-- A NUL behind the bytes, and what stands behind it, are not part of the string. -/
theorem ofBytes_append_nul (b rest : List UInt8) : ofBytes (b ++ 0 :: rest) = ofBytes b := by
  refine ext ?_
  show (b ++ 0 :: rest).takeWhile (· != 0) = b.takeWhile (· != 0)
  rw [List.takeWhile_append]
  split
  · next hlen =>
    rw [(List.takeWhile_prefix _).eq_of_length hlen]
    simp
  · rfl

/-- A list without NUL is all of the string that starts at it, also with a NUL and other bytes
behind it. -/
theorem bytes_ofBytes_append_nul {b : List UInt8} (h : 0 ∉ b) (rest : List UInt8) :
    (ofBytes (b ++ 0 :: rest)).bytes = b := by
  have hall : ∀ x ∈ b, (x != 0) = true := fun x hx => by
    simpa using ne_of_mem_of_not_mem hx h
  show List.takeWhile (· != 0) (b ++ 0 :: rest) = b
  rw [List.takeWhile_append_of_pos hall]
  simp

/-- A list without NUL is all of the string that starts at it. -/
theorem bytes_ofBytes {b : List UInt8} (h : 0 ∉ b) : (ofBytes b).bytes = b := by
  rw [← ofBytes_append_nul b [], bytes_ofBytes_append_nul h]

/-- The string that starts at the bytes of a string and its terminator is that string. -/
theorem ofBytes_bytes_nul (s : CString) (rest : List UInt8) :
    ofBytes (s.bytes ++ 0 :: rest) = s :=
  ext (bytes_ofBytes_append_nul s.noNul rest)

/-- The string that starts at the bytes of a string is that string. -/
@[simp] theorem ofBytes_bytes (s : CString) : ofBytes s.bytes = s := by
  rw [← ofBytes_append_nul s.bytes [], ofBytes_bytes_nul]

/-! ## `atoi` -/

/-- `isspace` in the C locale. -/
def isspace (c : UInt8) : Bool :=
  c == 32 || (9 ≤ c && c ≤ 13)

/-- `isdigit`. -/
def isdigit (c : UInt8) : Bool :=
  48 ≤ c && c ≤ 57

/-- The value of a run of decimal digits. -/
def digitsValue (ds : List UInt8) : Int :=
  ds.foldl (fun acc c => acc * 10 + ((c.toNat : Int) - 48)) 0

/-- `strtol(s, NULL, 10)` with a 64-bit `long`: white space, an optional sign, then digits;
a value out of range is `LONG_MIN` or `LONG_MAX`. -/
def strtol (s : CString) : Int :=
  let t := s.bytes.dropWhile isspace
  let value : Int :=
    match t with
    | 45 :: ds => - digitsValue (ds.takeWhile isdigit)
    | 43 :: ds => digitsValue (ds.takeWhile isdigit)
    | ds => digitsValue (ds.takeWhile isdigit)
  max (-2 ^ 63) (min (2 ^ 63 - 1) value)

/-- `atoi`: `strtol` converted to a 32-bit `int`. -/
def atoi (s : CString) : Int :=
  (strtol s).bmod (2 ^ 32)

/-- The text `printf` writes for `%d`. -/
def ofInt (n : Int) : CString :=
  lit ((if n < 0 then "-" else "") ++ toString n.natAbs)

example : atoi (lit " -42x") = -42 := by decide

end CString

/-! ## Flat memory -/

/-- The bytes at and around an array that starts at index `0`. -/
abbrev Mem := Int → UInt8

namespace Mem

/-- `buf[i] = c`. -/
def write (m : Mem) (i : Int) (c : UInt8) : Mem :=
  Function.update m i c

/-- `memcpy(buf + p, b, |b|)`. -/
def copy (m : Mem) (p : Int) (b : List UInt8) : Mem := fun i =>
  if p ≤ i ∧ i < p + b.length then b.getD (i - p).toNat 0 else m i

/-- The C string at index `p`, where the first NUL is looked for in the `n` bytes from `p` on. -/
def cstr (m : Mem) (p : Int) (n : Nat) : CString :=
  CString.ofBytes ((List.range n).map fun i => m (p + (i : Nat)))

/-- `m` has the bytes `b` from index `p` on. -/
def HasBytes (m : Mem) (p : Int) (b : List UInt8) : Prop :=
  ∀ i (hi : i < b.length), m (p + i) = b[i]

@[simp] theorem write_same (m : Mem) (i : Int) (c : UInt8) : m.write i c i = c := by
  simp [write]

theorem write_of_ne (m : Mem) {i j : Int} (c : UInt8) (h : j ≠ i) : m.write i c j = m j := by
  simp [write, h]

/-- A copy puts its bytes at its target. -/
theorem copy_hasBytes (m : Mem) (p : Int) (b : List UInt8) : (m.copy p b).HasBytes p b := by
  intro i hi
  have hin : p ≤ p + (i : Int) ∧ p + (i : Int) < p + b.length := by omega
  have hidx : (p + (i : Int) - p).toNat = i := by omega
  simp only [copy, if_pos hin, hidx]
  simp [List.getD, hi]

/-- A write outside a range leaves the bytes of the range. -/
theorem HasBytes.write {m : Mem} {p : Int} {b : List UInt8} (h : m.HasBytes p b) {i : Int}
    (c : UInt8) (hi : i < p ∨ p + b.length ≤ i) : (m.write i c).HasBytes p b := by
  intro k hk
  rw [write_of_ne m c (by omega)]
  exact h k hk

/-- The first bytes of a range. -/
theorem HasBytes.take {m : Mem} {p : Int} {b : List UInt8} (h : m.HasBytes p b) (n : Nat) :
    m.HasBytes p (b.take n) := by
  intro i hi
  rw [List.getElem_take]
  exact h i (by simp at hi; omega)

/-- A byte written behind a range extends it. -/
theorem HasBytes.snoc {m : Mem} {p : Int} {b : List UInt8} (h : m.HasBytes p b) (c : UInt8) :
    (m.write (p + b.length) c).HasBytes p (b ++ [c]) := by
  intro i hi
  rcases Nat.lt_or_ge i b.length with hlt | hge
  · rw [write_of_ne m c (by omega), List.getElem_append_left hlt]
    exact h i hlt
  · obtain rfl : i = b.length := by simp at hi; omega
    simp

/-- Reading a range that a memory is known to have. -/
theorem HasBytes.map_range {m : Mem} {p : Int} {b : List UInt8} (h : m.HasBytes p b) :
    ((List.range b.length).map fun i => m (p + (i : Nat))) = b := by
  apply List.ext_getElem
  · simp
  · intro i _ h2
    simpa using h i h2

/-- The two parts of a range. -/
theorem hasBytes_append {m : Mem} {p : Int} {b c : List UInt8} :
    m.HasBytes p (b ++ c) ↔ m.HasBytes p b ∧ m.HasBytes (p + b.length) c := by
  constructor
  · intro h
    refine ⟨fun i hi => ?_, fun i hi => ?_⟩
    · have hbyte := h i (by simp; omega)
      rwa [List.getElem_append_left hi] at hbyte
    · have hbyte := h (b.length + i) (by simp; omega)
      rw [List.getElem_append_right (by omega)] at hbyte
      simpa [Int.add_assoc] using hbyte
  · rintro ⟨hb, hc⟩ i hi
    rcases Nat.lt_or_ge i b.length with hlt | hge
    · rw [List.getElem_append_left hlt]
      exact hb i hlt
    · rw [List.getElem_append_right hge, ← hc (i - b.length) (by simp at hi; omega)]
      congr 1
      omega

/-- A copy outside a range leaves the bytes of the range. -/
theorem HasBytes.copy {m : Mem} {p : Int} {b : List UInt8} (h : m.HasBytes p b) {q : Int}
    {c : List UInt8} (hq : p + b.length ≤ q) : (m.copy q c).HasBytes p b := by
  intro i hi
  have hout : ¬ (q ≤ p + (i : Int) ∧ p + (i : Int) < q + c.length) := by omega
  rw [Mem.copy, if_neg hout]
  exact h i hi

/-- Bytes copied behind a range extend it. -/
theorem HasBytes.copy_append {m : Mem} {p : Int} {b : List UInt8} (h : m.HasBytes p b)
    (c : List UInt8) : (m.copy (p + b.length) c).HasBytes p (b ++ c) :=
  hasBytes_append.2 ⟨h.copy (Int.le_refl _), copy_hasBytes m _ c⟩

/-- A memory that has some bytes and a NUL at `p` reads as the string of these bytes. -/
theorem cstr_ofBytes {m : Mem} {p : Int} {b : List UInt8} (h : m.HasBytes p (b ++ [0])) {n : Nat}
    (hn : b.length < n) : m.cstr p n = CString.ofBytes b := by
  obtain ⟨k, rfl⟩ : ∃ k, n = (b ++ [0]).length + k :=
    ⟨n - (b.length + 1), by simp; omega⟩
  rw [cstr, List.range_add, List.map_append, h.map_range, List.append_assoc]
  exact CString.ofBytes_append_nul b _

/-- A memory that has a string and its terminator at `p` reads as that string. -/
theorem cstr_eq {m : Mem} {p : Int} {s : CString} (h : m.HasBytes p (s.bytes ++ [0])) {n : Nat}
    (hn : s.length < n) : m.cstr p n = s := by
  rw [cstr_ofBytes h hn, CString.ofBytes_bytes]

/-- The bytes from `p` to `t`. -/
def slice (m : Mem) (p t : Int) : List UInt8 :=
  (List.range (t - p).toNat).map fun i => m (p + (i : Nat))

@[simp] theorem length_slice (m : Mem) (p t : Int) : (m.slice p t).length = (t - p).toNat := by
  simp [slice]

/-- The first byte of a slice. -/
theorem slice_cons (m : Mem) {p t : Int} (h : p < t) : m.slice p t = m p :: m.slice (p + 1) t := by
  have hlen : (t - p).toNat = (t - (p + 1)).toNat + 1 := by omega
  rw [slice, hlen, List.range_succ_eq_map, List.map_cons, List.map_map]
  refine congrArg₂ List.cons (by simp) (List.map_congr_left fun i _ => ?_)
  show m (p + ((i + 1 : Nat) : Int)) = m (p + 1 + i)
  congr 1
  omega

/-- A write before a slice leaves it. -/
theorem slice_write (m : Mem) {p t i : Int} (c : UInt8) (h : i < p) :
    (m.write i c).slice p t = m.slice p t :=
  List.map_congr_left fun k _ => write_of_ne m c (by omega)

/-- A memory has its own bytes. -/
theorem hasBytes_slice (m : Mem) (p t : Int) : m.HasBytes p (m.slice p t) := by
  intro i _
  simp [slice]

/-- The memories have the same bytes at the indices from `0` to `t`. -/
def Agree (t : Int) (m m' : Mem) : Prop :=
  ∀ i, 0 ≤ i → i ≤ t → m i = m' i

/-- The same byte written to both. -/
theorem Agree.write {t : Int} {m m' : Mem} (h : Agree t m m') (i : Int) (c : UInt8) :
    Agree t (m.write i c) (m'.write i c) := by
  intro k h0 hk
  by_cases hki : k = i
  · rw [hki, write_same, write_same]
  · rw [write_of_ne m c hki, write_of_ne m' c hki]
    exact h k h0 hk

/-- Memories with the same bytes up to an index agree when a NUL is written there. -/
theorem HasBytes.agree {m m' : Mem} {b : List UInt8} (h : m.HasBytes 0 b) (h' : m'.HasBytes 0 b)
    {t : Int} (ht : t ≤ b.length) : Agree t (m.write t 0) (m'.write t 0) := by
  intro k h0 hk
  by_cases hkt : k = t
  · rw [hkt, write_same, write_same]
  · have hlt : k.toNat < b.length := by omega
    have hbyte := h k.toNat hlt
    have hbyte' := h' k.toNat hlt
    rw [show (0 : Int) + (k.toNat : Nat) = k by omega] at hbyte hbyte'
    rw [write_of_ne m 0 hkt, write_of_ne m' 0 hkt, hbyte, hbyte']

/-- With a NUL at `t`, a string from `p` to `t` or its first NUL. -/
theorem cstr_slice {m : Mem} {p t : Int} (hnul : m t = 0) (hp : p ≤ t) {n : Nat}
    (hn : (t - p).toNat < n) : m.cstr p n = CString.ofBytes (m.slice p t) := by
  refine cstr_ofBytes ?_ (by rwa [length_slice])
  refine hasBytes_append.2 ⟨m.hasBytes_slice p t, fun i hi => ?_⟩
  obtain rfl : i = 0 := by simpa using hi
  rw [show p + ((m.slice p t).length : Int) + (0 : Nat) = t by rw [length_slice]; omega]
  exact hnul

end Mem

end Lib
